import Chronos.Repositories.Attempts

namespace Chronos

open Txn (stmt TxId)

-- The User a service is called with. `attached`: the session of the service has loaded it, so
-- that a rollback of that session expires it.
structure SessionUser where
  id : UserId
  orgId : OrgId
  attached : Bool

def MAX_PAYLOAD_BYTES : Nat := 64 * 1024

-- A JSON document of a request: its compact encoding as it was sent, and what a jsonb column makes
-- of it. Postgres writes a number out in full, 1e300 with all its digits, and refuses some
-- documents, such as one with a NUL in a string.
structure Document where
  sent : String
  held : Json
  refused : Bool
deriving DecidableEq

-- A document that is held as it was sent.
instance : Coe String Document := ⟨fun text => ⟨text, text, false⟩⟩

-- Postgres has no NUL in a text.
def storableText (text : String) : Bool := text.toList.all fun c => c ≠ Char.ofNat 0

-- The instants of a Python datetime in UTC, from year 1 to year 9999.
def storableInstant (at_ : Time) : Bool := -62135596800 ≤ at_ ∧ at_ < 253402300800

-- A policy field is `some` when it is in model_fields_set.
structure JobCreate where
  taskName : String
  payload : Document
  queue : String
  projectId : Option ProjectId
  priority : Option Int
  backoffStrategy : Option RetryStrategy
  runAt : Option Time
  maxAttempts : Option Int
  timeoutSeconds : Option Int
  backoffBaseSeconds : Option Int
  backoffFactor : Option ℚ
  backoffMaxSeconds : Option Int
  idempotencyKey : Option String
  dependsOn : List JobId

-- The field constraints of the schema.
def JobCreate.accepted (data : JobCreate) : Bool :=
  1 ≤ data.taskName.length ∧ data.taskName.length ≤ 255 ∧
  data.payload.sent.utf8ByteSize ≤ MAX_PAYLOAD_BYTES ∧
  1 ≤ data.queue.length ∧ data.queue.length ≤ 100 ∧
  data.priority.all (fun n => -100 ≤ n ∧ n ≤ 100) ∧
  data.maxAttempts.all (fun n => 1 ≤ n ∧ n ≤ 20) ∧
  data.timeoutSeconds.all (fun n => 1 ≤ n ∧ n ≤ 86400) ∧
  data.backoffBaseSeconds.all (fun n => 0 ≤ n ∧ n ≤ 3600) ∧
  data.backoffFactor.all (fun x => 1 ≤ x ∧ x ≤ 10) ∧
  data.backoffMaxSeconds.all (fun n => 1 ≤ n ∧ n ≤ 86400) ∧
  data.idempotencyKey.all (fun key => key.length ≤ 255) ∧
  data.dependsOn.length ≤ 50

-- The values of the row that the flush sends can be stored.
def JobCreate.storable (data : JobCreate) : Bool :=
  storableText data.taskName ∧ data.payload.refused = false ∧
    data.runAt.all storableInstant ∧ data.idempotencyKey.all storableText

namespace TenancyRepository

def getProject (projectId : ProjectId) (orgId : OrgId) (v : Snapshot) : Option Project :=
  (v.project projectId).bind fun p => if p.orgId = orgId then some p else none

-- ORDER BY created_at, id LIMIT 1
def defaultProject (orgId : OrgId) (v : Snapshot) : Option Project :=
  let rows := (v.projectIds.filterMap fun id => v.project id).filter fun p => p.orgId = orgId
  (rows.insertionSort fun a b =>
    a.createdAt < b.createdAt ∨ a.createdAt = b.createdAt ∧ a.id ≤ b.id).head?

end TenancyRepository

namespace QueueRepository

def getByName (projectId : ProjectId) (name : String) (v : Snapshot) : Option Queue :=
  (v.queueIds.filterMap fun id => v.queue id).find? fun q =>
    q.projectId = projectId ∧ q.name = name

end QueueRepository

-- uq_queues_project_name
def uqQueuesProjectName (queue : Queue) : ∀ k, Row k → Bool
  | .queue _, q => q.projectId = queue.projectId ∧ q.name = queue.name
  | _, _ => false

-- What the database hands out for the rows of one request.
structure FreshIds where
  job : JobId
  queue : QueueId
  workflow : Nat

namespace JobService

-- The project lookup shared with QueueService.create.
def resolveProject (user : SessionUser) (projectId : Option ProjectId) :
    Tx (Except PyError Project) :=
  match projectId with
  | some projectId => do
      match ← select (TenancyRepository.getProject projectId user.orgId) with
      | some project => return .ok project
      | none => return .error (.notFound "project not found")
  | none => do
      match ← select (TenancyRepository.defaultProject user.orgId) with
      | some project => return .ok project
      | none => return .error (.notFound "organization has no projects")

-- _resolve_queue, after the project lookup. The savepoint around the insert is the statement
-- itself: an insert the index refuses leaves nothing behind.
def resolveQueue (id : QueueId) (project : Project) (name : String) : Tx (Except PyError Queue) :=
  if storableText name then do
    match ← select (QueueRepository.getByName project.id name) with
    | some queue => return .ok queue
    | none => do
        let queue := Queue.fresh id project.id name
        if ← insertQueue id queue (uqQueuesProjectName queue) then return .ok queue
        else
          match ← select (QueueRepository.getByName project.id name) with
          | some queue => return .ok queue
          | none => return .error .integrity
  else return .error .dataError

-- _build_job, with the column defaults the flush adds.
def buildJob (id : JobId) (ownerId : UserId) (queue : Queue) (data : JobCreate)
    (workflowId : Option Nat) (now : Time) : Job where
  id := id
  ownerId := ownerId
  queueId := queue.id
  queue := queue.name
  taskName := data.taskName
  batchId := none
  workflowId := workflowId
  payload := data.payload.held
  status := .pending
  priority := data.priority.getD queue.defaultPriority
  runAt := data.runAt.getD now
  idempotencyKey := data.idempotencyKey
  maxAttempts := data.maxAttempts.getD queue.defaultMaxAttempts
  backoffStrategy := data.backoffStrategy.getD queue.defaultBackoffStrategy
  attemptCount := 0
  timeoutSeconds := data.timeoutSeconds.getD queue.defaultTimeoutSeconds
  backoffBaseSeconds := data.backoffBaseSeconds.getD queue.defaultBackoffBaseSeconds
  backoffFactor := data.backoffFactor.getD queue.defaultBackoffFactor
  backoffMaxSeconds := data.backoffMaxSeconds.getD queue.defaultBackoffMaxSeconds
  lockedBy := none
  leaseExpiresAt := none
  lastError := none
  aiSummary := none
  result := none
  createdAt := now
  startedAt := none
  finishedAt := none

-- An empty key counts as no key wherever the code asks `if data.idempotency_key`.
def truthyKey (data : JobCreate) : Option String := data.idempotencyKey.filter (· ≠ "")

-- The dependency targets must exist and be the owner's; the last one with a workflow decides.
def checkDependencies (ownerId : UserId) : List JobId → Option Nat → Tx (Except PyError (Option Nat))
  | [], workflowId => pure (.ok workflowId)
  | dep :: deps, workflowId => do
      match ← select (JobRepository.getForOwner dep ownerId) with
      | none => return .error (.notFound
          ("dependency target " ++ toString dep ++ " not found or not owned by you"))
      | some job => checkDependencies ownerId deps (job.workflowId <|> workflowId)

-- flush, add_many and commit. `false` is an IntegrityError: a CHECK or the idempotency index
-- refused the job, or uq_job_dep_pair its dependencies.
def insertJob (tx : TxId) (job : Job) (dependsOn : List JobId) : Tx Bool :=
  if job.checks then do
    let row : JobEntry := { job := job, attempts := [], dependsOn := [], log := [.created tx] }
    if ← insertEntry job.id row (uqJobsOwnerIdempotency job) then
      if dependsOn.Nodup then do
        let _ ← writeJob job.id fun e => { e with dependsOn := dependsOn }
        stmt .commit
        return true
      else return false
    else return false
  else return false

-- The IntegrityError branch of enqueue. The rollback expires an attached user, and reading his
-- id then raises.
def recover (user : SessionUser) (data : JobCreate) : Tx (Except PyError (Job × Bool)) := do
  stmt .rollback
  match truthyKey data with
  | none => return .error .integrity
  | some key =>
      if user.attached then return .error .missingGreenlet
      else
        match ← select (JobRepository.getByIdempotencyKey user.id key) with
        | some existing => return .ok (existing, false)
        | none => return .error .integrity

-- enqueue, past the pre-check.
def create (tx : TxId) (user : SessionUser) (data : JobCreate) (ids : FreshIds) (now : Time) :
    Tx (Except PyError (Job × Bool)) := do
  match ← resolveProject user data.projectId with
  | .error err => return .error err
  | .ok project =>
      match ← resolveQueue ids.queue project data.queue with
      | .error err => return .error err
      | .ok queue =>
          let workflowId := if data.dependsOn = [] then none else some ids.workflow
          match ← checkDependencies user.id data.dependsOn workflowId with
          | .error err => return .error err
          | .ok workflowId =>
              let job := buildJob ids.job user.id queue data workflowId now
              if data.storable then
                if ← insertJob tx job data.dependsOn then return .ok (job, true)
                else recover user data
              else return .error .dataError

-- The fast path of enqueue.
def preCheck (user : SessionUser) (data : JobCreate) : Tx (Except PyError (Option Job)) :=
  match truthyKey data with
  | some key =>
      if storableText key then do
        let existing ← select (JobRepository.getByIdempotencyKey user.id key)
        return .ok existing
      else return .error .dataError
  | none => return .ok none

def enqueue (tx : TxId) (user : SessionUser) (data : JobCreate) (ids : FreshIds) :
    Tx (Except PyError (Job × Bool)) := do
  let now ← stmt .begin
  match ← preCheck user data with
  | .error err => do
      stmt .rollback
      return .error err
  | .ok (some job) => do
      stmt .rollback
      return .ok (job, false)
  | .ok none => do
      let result ← create tx user data ids now
      stmt .rollback
      return result

-- A transition requested by the owner: the guarded UPDATE, and if it matches no row, the
-- ownership check that tells an unknown job from one in another state.
def transition (ownerId : UserId) (jobId : JobId) (u : Time → GuardedUpdate) (event : JobEvent)
    (conflict : String) : Tx (Except PyError Job) := do
  let now ← stmt .begin
  let row ← updateJob jobId (fun e => (u now).guard e.job) (JobEntry.amend (u now).set event)
  match row with
  | some e => do
      stmt .commit
      stmt .rollback
      return .ok e.job
  | none => do
      let job ← select (JobRepository.getForOwner jobId ownerId)
      stmt .rollback
      match job with
      | none => return .error (.notFound "job not found")
      | some _ => return .error (.conflict conflict)

def cancel (ownerId : UserId) (jobId : JobId) : Tx (Except PyError Job) :=
  transition ownerId jobId (JobRepository.cancel ownerId) .cancelled
    "only pending jobs can be cancelled"

def requeue (ownerId : UserId) (jobId : JobId) : Tx (Except PyError Job) :=
  transition ownerId jobId (JobRepository.requeue ownerId) .requeued
    "only dead or cancelled jobs can be requeued"

def get (ownerId : UserId) (jobId : JobId) : Tx (Except PyError Job) := do
  match ← select (JobRepository.getForOwner jobId ownerId) with
  | some job => return .ok job
  | none => return .error (.notFound "job not found")

def getJob (ownerId : UserId) (jobId : JobId) : Tx (Except PyError Job) := do
  let _ ← stmt .begin
  let job ← get ownerId jobId
  stmt .rollback
  return job

def listJobs (ownerId : UserId) (f : JobRepository.JobFilter) (limit offset : Nat) :
    Tx (List Job × Nat) := do
  let _ ← stmt .begin
  let page ← select (JobRepository.listForOwner ownerId f limit offset)
  stmt .rollback
  return page

-- What belongs to a job, once the job has passed the ownership check.
def listOfJob {β : Type} (ownerId : UserId) (jobId : JobId) (rows : JobEntry → List β) :
    Tx (Except PyError (List β)) := do
  let _ ← stmt .begin
  match ← get ownerId jobId with
  | .error err => do
      stmt .rollback
      return .error err
  | .ok _ => do
      let found ← select fun v => ((v.job jobId).map rows).getD []
      stmt .rollback
      return .ok found

-- ORDER BY started_at
def listAttempts (ownerId : UserId) (jobId : JobId) : Tx (Except PyError (List JobAttempt)) :=
  listOfJob ownerId jobId fun e => e.attempts.insertionSort fun a b => a.startedAt ≤ b.startedAt

-- The dependencies endpoint of the jobs router.
def listDependencies (ownerId : UserId) (jobId : JobId) : Tx (Except PyError (List JobId)) :=
  listOfJob ownerId jobId JobEntry.dependsOn

end JobService

end Chronos
