import Chronos.Services.Batch
import Chronos.Services.Schedules
import Chronos.Services.Tenancy

namespace Chronos

open Txn (stmt TxId)

def UserRole.value : UserRole → String
  | .owner => "owner"
  | .admin => "admin"
  | .member => "member"
  | .viewer => "viewer"

-- The position in _HIERARCHY.
def UserRole.rank : UserRole → Nat
  | .owner => 0
  | .admin => 1
  | .member => 2
  | .viewer => 3

def requireRole (user : User) (minimum : UserRole) : Except PyError Unit :=
  if user.role.rank > minimum.rank then
    .error (.forbidden ("this action requires at least the '" ++ minimum.value ++
      "' role; your role is '" ++ user.role.value ++ "'"))
  else .ok ()

-- A request to the routers for jobs, the DLQ, queues, schedules, projects and users, with the
-- ids the database hands out for the rows it may create.
inductive Request
  | createJob (data : JobCreate) (header : Option String) (ids : FreshIds)
  | createBatch (items : List JobService.BatchItem) (batchId : Nat)
  | listJobs (f : JobRepository.JobFilter) (limit offset : Nat)
  | getJob (jobId : JobId)
  | listAttempts (jobId : JobId)
  | cancelJob (jobId : JobId)
  | requeueJob (jobId : JobId)
  | listDependencies (jobId : JobId)
  | listDlq (limit offset : Nat)
  | requeueDeadJob (jobId : JobId)
  | listQueues (projectId : Option ProjectId) (rank : QueueId → Nat)
  | createQueue (projectId : Option ProjectId) (queue : Queue)
  | getQueue (queueId : QueueId)
  | updateQueue (queueId : QueueId) (fields : List QueueField)
  | pauseQueue (queueId : QueueId)
  | resumeQueue (queueId : QueueId)
  | queueStats (queueId : QueueId)
  | createSchedule (data : ScheduleCreate) (id : ScheduleId) (queueId : QueueId)
  | listSchedules (limit offset : Nat)
  | getSchedule (scheduleId : ScheduleId)
  | updateSchedule (scheduleId : ScheduleId) (fields : List ScheduleField)
  | deleteSchedule (scheduleId : ScheduleId)
  | getOrg
  | listProjects
  | createProject (name : String) (id : ProjectId)
  | getProject (projectId : ProjectId)
  | listUsers
  | updateRole (userId : UserId) (role : UserRole)

-- What a request returns, before it is rendered.
inductive Response
  | none
  | job (job : Job)
  | enqueued (job : Job) (created : Bool)
  | batch (batchId : Nat) (jobs : List Job)
  | jobs (jobs : List Job) (total : Nat)
  | attempts (attempts : List JobAttempt)
  | dependencies (dependsOn : List JobId)
  | queue (queue : Queue)
  | queues (queues : List (Queue × (JobStatus → Nat)))
  | schedule (s : Schedule)
  | schedules (rows : List Schedule) (total : Nat)
  | org (org : Organization)
  | project (project : Project)
  | projects (projects : List Project)
  | user (user : User)
  | users (users : List User)
  | raised (err : PyError)

def Response.ofExcept {α : Type} (f : α → Response) : Except PyError α → Response
  | .ok a => f a
  | .error err => .raised err

namespace Request

-- The role an endpoint asks require_role for.
def minimum : Request → Option UserRole
  | .createJob .. => some .member
  | .createBatch .. => some .member
  | .cancelJob _ => some .member
  | .requeueJob _ => some .member
  | .createQueue .. => some .admin
  | .updateQueue .. => some .admin
  | .pauseQueue _ => some .admin
  | .resumeQueue _ => some .admin
  | .listUsers => some .admin
  | .updateRole .. => some .owner
  | _ => none

-- The header counts if the body has no key.
def withHeader (data : JobCreate) (header : Option String) : JobCreate :=
  match header with
  | some key =>
      if key ≠ "" ∧ JobService.truthyKey data = none then { data with idempotencyKey := some key }
      else data
  | none => data

def updateRoleOf (user : SessionUser) (userId : UserId) (role : UserRole) :
    Tx (Except PyError User) := do
  if userId = user.id then return .error (.forbidden "cannot change your own role")
  else
    match ← UserRepository.updateRole userId user.orgId role with
    | none => do
        stmt .rollback
        return .error (.notFound "user not found in your organization")
    | some updated => do
        stmt .commit
        stmt .rollback
        return .ok updated

def getScheduleOf (user : SessionUser) (scheduleId : ScheduleId) : Tx (Except PyError Schedule) := do
  let s ← ScheduleService.get user scheduleId
  stmt .rollback
  return s

-- The endpoint past require_role.
def handle (cron : CronClock) (tx : TxId) (user : SessionUser) : Request → Tx Response
  | .createJob data header ids => do
      return .ofExcept (fun r => .enqueued r.1 r.2)
        (← JobService.enqueue tx user (withHeader data header) ids)
  | .createBatch items batchId => do
      return .ofExcept (fun r => .batch r.1 r.2) (← JobService.enqueueBatch tx user items batchId)
  | .listJobs f limit offset => do
      let page ← JobService.listJobs user.id f limit offset
      return .jobs page.1 page.2
  | .getJob jobId => do return .ofExcept .job (← JobService.getJob user.id jobId)
  | .listAttempts jobId => do return .ofExcept .attempts (← JobService.listAttempts user.id jobId)
  | .cancelJob jobId => do return .ofExcept .job (← JobService.cancel user.id jobId)
  | .requeueJob jobId => do return .ofExcept .job (← JobService.requeue user.id jobId)
  | .listDependencies jobId => do
      return .ofExcept .dependencies (← JobService.listDependencies user.id jobId)
  | .listDlq limit offset => do
      let page ← JobService.listJobs user.id ⟨some .dead, Option.none, Option.none⟩ limit offset
      return .jobs page.1 page.2
  | .requeueDeadJob jobId => do return .ofExcept .job (← JobService.requeue user.id jobId)
  | .listQueues projectId rank => do
      return .queues (← QueueService.listWithStats user projectId rank)
  | .createQueue projectId queue => do
      return .ofExcept .queue (← QueueService.create user projectId queue)
  | .getQueue queueId => do return .ofExcept .queue (← QueueService.getQueue user queueId)
  | .updateQueue queueId fields => do
      return .ofExcept .queue (← QueueService.update user queueId fields)
  | .pauseQueue queueId => do
      return .ofExcept .queue (← QueueService.setPaused user queueId true)
  | .resumeQueue queueId => do
      return .ofExcept .queue (← QueueService.setPaused user queueId false)
  | .queueStats queueId => do
      return .ofExcept (fun r => .queues [r]) (← QueueService.stats user queueId)
  | .createSchedule data id queueId => do
      return .ofExcept .schedule (← ScheduleService.create cron user data id queueId)
  | .listSchedules limit offset => do
      let page ← ScheduleService.listSchedules user limit offset
      return .schedules page.1 page.2
  | .getSchedule scheduleId => do return .ofExcept .schedule (← getScheduleOf user scheduleId)
  | .updateSchedule scheduleId fields => do
      return .ofExcept .schedule (← ScheduleService.update cron user scheduleId fields)
  | .deleteSchedule scheduleId => do
      return .ofExcept (fun _ => .none) (← ScheduleService.delete user scheduleId)
  | .getOrg => do return .ofExcept .org (← TenancyService.getOrg user)
  | .listProjects => do return .projects (← TenancyService.listProjects user)
  | .createProject name id => do
      return .ofExcept .project (← TenancyService.createProject user name id)
  | .getProject projectId => do
      return .ofExcept .project (← TenancyService.getProject user projectId)
  | .listUsers => do
      let users ← select (UserRepository.listForOrg user.orgId)
      stmt .rollback
      return .users users
  | .updateRole userId role => do return .ofExcept .user (← updateRoleOf user userId role)

-- get_current_user, then the endpoint: the session of the request has loaded the user.
def body (cron : CronClock) (tx : TxId) (userId : UserId) (r : Request) : Tx Response := do
  let _ ← stmt .begin
  match ← select fun v => v.user userId with
  | none => do
      stmt .rollback
      return .raised (.unauthorized "invalid or expired credentials")
  | some user =>
      match r.minimum.elim (.ok ()) (requireRole user) with
      | .error err => do
          stmt .rollback
          return .raised err
      | .ok () => r.handle cron tx ⟨userId, user.orgId, true⟩

end Request

end Chronos
