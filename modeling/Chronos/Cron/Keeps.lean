import Chronos.Cron.System
import Chronos.Theorems.ReadOnly

namespace Chronos

open Txn (TxId Stmt stmt)

-- What a statement that updates a row may do to it: the content of a job stays, and a schedule
-- is left as it is or deleted.
def KeepsRow : (k : Key) → (Row k → Row k) → Prop
  | .job _, set => ∀ e : JobEntry, (set e).job.content = e.job.content
  | .schedule _, set => ∀ s : Option Schedule, set s = s ∨ set s = none
  | _, _ => True

-- What a statement that inserts a row respects: the idempotency index, and the owners of the
-- schedules.
def InsertsRow (owner : ScheduleId → UserId) : (k : Key) → Row k → (∀ k, Row k → Bool) → Prop
  | .job _, e, clash => clash = uqJobsOwnerIdempotency e.job
  | .schedule id, s, _ => s.all fun s => s.id = id ∧ s.ownerId = owner id
  | _, _, _ => True

def Keeps (owner : ScheduleId → UserId) : {β : Type} → Stmt Key Row Time β → Prop
  | _, .update k _ set => KeepsRow k set
  | _, .recheck k _ set => KeepsRow k set
  | _, .write k set => KeepsRow k set
  | _, .insert k row clash => InsertsRow owner k row clash
  | _, _ => True

section Programs

variable {owner : ScheduleId → UserId} {α β : Type} {user : SessionUser}

theorem keeps_of_reads {p : Tx α} (h : p.All Stmt.Reads) : p.All (Keeps owner) :=
  h.mono fun st hst => by cases hst <;> trivial

theorem keeps_return (p : Tx α) (f : α → β) (h : p.All (Keeps owner)) :
    (p >>= fun a => Pure.pure (f a)).All (Keeps owner) :=
  .bind h fun _ => .pure _

theorem keeps_begin : (stmt .begin : Tx Time).All (Keeps owner) := .stmt trivial

theorem keeps_commit : (stmt .commit : Tx Unit).All (Keeps owner) := .stmt trivial

theorem keeps_rollback : (stmt .rollback : Tx Unit).All (Keeps owner) := .stmt trivial

theorem keeps_select (query : Snapshot → β) : (select query).All (Keeps owner) := .stmt trivial

theorem keeps_raise (err : PyError) :
    (stmt .rollback >>= fun _ => Pure.pure (Except.error err) : Tx (Except PyError α)).All
      (Keeps owner) :=
  .bind keeps_rollback fun _ => .pure _

theorem keeps_finish (a : α) :
    (stmt .commit >>= fun _ => stmt .rollback >>= fun _ => Pure.pure a : Tx α).All (Keeps owner) :=
  .bind keeps_commit fun _ => .bind keeps_rollback fun _ => .pure _

section Execution

open ExecutionService JobRepository

theorem finishFailure_content (workerId : WorkerId) (error : String) (retry : Bool) (delay : ℚ)
    (now : Time) (job : Job) :
    ((finishFailure workerId error retry delay now).set job).content = job.content := by
  cases retry <;> rfl

theorem reclaimValues_content (error : String) (decision : FailureDecision) (now : Time)
    (job : Job) : (reclaimValues error decision now job).content = job.content := by
  obtain ⟨retry, delay⟩ := decision
  cases retry <;> rfl

theorem keeps_registerWorker (workerId : WorkerId) (name : String) (concurrency : Int) :
    (registerWorker workerId name concurrency).All (Keeps owner) :=
  .bind keeps_begin fun _ => .bind (.stmt trivial) fun _ => keeps_finish ()

theorem keeps_updateJobs {u : GuardedUpdate} (h : ∀ job, (u.set job).content = job.content)
    (ids : List JobId) : (updateJobs u ids).All (Keeps owner) := by
  induction ids with
  | nil => exact .pure _
  | cons id ids ih => exact .bind (.stmt fun e => h e.job) fun _ => .bind ih fun _ => .pure _

theorem keeps_heartbeat (workerId : WorkerId) (leaseSeconds : ℚ) (rank : JobId → Nat) :
    (heartbeat workerId leaseSeconds rank).All (Keeps owner) :=
  .bind keeps_begin fun _ => .bind (.stmt trivial) fun _ => .bind (.stmt trivial) fun _ =>
    .bind (keeps_select _) fun _ => .bind (keeps_updateJobs (fun _ => rfl) _) fun _ =>
      keeps_finish _

theorem keeps_setWorkerStatus (workerId : WorkerId) (status : WorkerStatus) (stopped : Bool) :
    (setWorkerStatus workerId status stopped).All (Keeps owner) :=
  .bind keeps_begin fun _ => .bind (.stmt trivial) fun _ => keeps_finish ()

theorem keeps_startAttempts (workerId : WorkerId) (now : Time) (jobs : List Job) :
    (startAttempts workerId now jobs).All (Keeps owner) := by
  induction jobs with
  | nil => exact .pure _
  | cons job jobs ih => exact .bind (.stmt fun _ => rfl) fun _ => ih

theorem keeps_lockRows (cond : JobEntry → Bool) (n : Nat) (ids : List JobId) :
    (lockRows cond n ids).All (Keeps owner) := by
  induction ids generalizing n with
  | nil =>
      cases n <;> exact .pure _
  | cons id ids ih =>
      cases n with
      | zero => exact .pure _
      | succ n =>
          refine .bind (.stmt trivial) fun row => ?_
          cases row with
          | none => exact ih (n + 1)
          | some e => exact .bind (ih n) fun _ => .pure _

theorem keeps_updateCandidates (tx : TxId) (a : ClaimArgs) (now : Time) (pass : Pass)
    (es : List JobEntry) : (updateCandidates tx a now pass es).All (Keeps owner) := by
  induction es with
  | nil => exact .pure _
  | cons e es ih => exact .bind (.stmt fun _ => rfl) fun _ => .bind ih fun _ => .pure _

theorem keeps_claimWhere (tx : TxId) (a : ClaimArgs) (now : Time) (pass : Pass)
    (scan : Snapshot → List JobId × (JobEntry → Bool)) (limit : Nat) :
    (claimWhere tx a now pass scan limit).All (Keeps owner) :=
  .bind (keeps_select _) fun _ => .bind (keeps_lockRows _ _ _) fun _ =>
    keeps_updateCandidates tx a now pass _

theorem keeps_lockQueues (queues : List String) (ids : List QueueId) :
    (lockQueues queues ids).All (Keeps owner) := by
  induction ids with
  | nil => exact .pure _
  | cons id ids ih => exact .bind (.stmt trivial) fun _ => .bind ih fun _ => .pure _

theorem keeps_claimFromQueues (tx : TxId) (a : ClaimArgs) (now : Time)
    (rows : List (QueueId × Int)) (remaining : Nat) :
    (claimFromQueues tx a now rows remaining).All (Keeps owner) := by
  induction rows generalizing remaining with
  | nil => exact .pure _
  | cons row rows ih =>
      obtain ⟨queueId, cap⟩ := row
      rw [claimFromQueues]
      split
      · exact .pure _
      · refine .bind (keeps_select _) fun running => ?_
        dsimp only
        split
        · exact ih _
        · exact .bind (keeps_claimWhere tx a now _ _ _) fun _ => .bind (ih _) fun _ => .pure _

theorem keeps_claimBatch (tx : TxId) (a : ClaimArgs) (now : Time) :
    (claimBatch tx a now).All (Keeps owner) := by
  refine .bind (keeps_claimWhere tx a now _ _ _) fun claimed => ?_
  dsimp only
  split
  · exact .bind (.bind (keeps_select _) fun _ => .bind (keeps_lockQueues _ _) fun _ =>
      keeps_claimFromQueues tx a now _ _) fun _ => .pure _
  · exact .pure _

theorem keeps_claimJobs (tx : TxId) (a : ClaimArgs) : (claimJobs tx a).All (Keeps owner) :=
  .bind keeps_begin fun _ => .bind (keeps_claimBatch tx a _) fun _ =>
    .bind (keeps_startAttempts _ _ _) fun _ => keeps_finish _

theorem keeps_finalize (tx claim : TxId) (job : Job) {u : GuardedUpdate} (how : Finish)
    (status : AttemptStatus) (error : Option String) (now : Time)
    (h : ∀ job, (u.set job).content = job.content) :
    (finalize tx claim job u how status error now).All (Keeps owner) := by
  refine .bind (.stmt fun e => h e.job) fun updated => ?_
  cases updated with
  | none => exact .bind keeps_rollback fun _ => .bind keeps_rollback fun _ => .pure _
  | some e => exact .bind (.stmt fun _ => rfl) fun _ => keeps_finish _

theorem keeps_storeSummary (jobId : JobId) (summary : String) :
    (storeSummary jobId summary).All (Keeps owner) :=
  .bind keeps_begin fun _ => .bind (.stmt fun _ => rfl) fun _ => keeps_finish ()

theorem keeps_completeFailure (tx claim : TxId) (job : Job) (workerId : WorkerId) (error : String)
    (rng : Draw) (summary : Option String) :
    (completeFailure tx claim job workerId error rng summary).All (Keeps owner) := by
  unfold completeFailure
  split
  · exact .pure _
  · refine .bind keeps_begin fun now => .bind
      (keeps_finalize tx claim job _ _ _ now (finishFailure_content workerId error _ _ now))
      fun done => ?_
    split
    · split
      · split
        · exact .pure _
        · exact .bind (keeps_storeSummary _ _) fun _ => .pure _
      · exact .pure _
    · exact .pure _

theorem keeps_finalizer (tx claim : TxId) (job : Job) (workerId : WorkerId) (f : Finalizer) :
    (f.body tx claim job workerId).All (Keeps owner) := by
  cases f with
  | completeSuccess result =>
      exact keeps_return _ _ (.bind keeps_begin fun _ => keeps_finalize _ _ _ _ _ _ _ fun _ => rfl)
  | completeFailure error rng summary =>
      exact keeps_return _ _ (keeps_completeFailure tx claim job workerId error rng summary)
  | releaseJob =>
      exact keeps_return _ _ (.bind keeps_begin fun _ => keeps_finalize _ _ _ _ _ _ _ fun _ => rfl)

theorem keeps_reapJobs (rng : JobId → Draw) (now : Time) (es : List JobEntry) :
    (reapJobs rng now es).All (Keeps owner) := by
  induction es with
  | nil => exact .pure _
  | cons e es ih =>
      refine .bind (.stmt fun _ => rfl) fun _ => ?_
      split
      · exact .pure _
      · exact .bind (.stmt fun _ => reclaimValues_content _ _ _ _) fun _ => ih

theorem keeps_markStaleOffline (offlineAfterSeconds : Int) (now : Time) (ids : List WorkerId) :
    (markStaleOffline offlineAfterSeconds now ids).All (Keeps owner) := by
  induction ids with
  | nil => exact .pure _
  | cons id ids ih => exact .bind (.stmt trivial) fun _ => ih

theorem keeps_reapOnce (offlineAfterSeconds : Int) (rank : JobId → Nat) (rng : JobId → Draw) :
    (reapOnce offlineAfterSeconds rank rng).All (Keeps owner) := by
  refine .bind keeps_begin fun now => .bind (.stmt trivial) fun gotLock => ?_
  cases gotLock with
  | none => exact .bind keeps_rollback fun _ => keeps_rollback.bind fun _ => .pure _
  | some _ =>
      refine .bind (keeps_select _) fun ids => .bind (keeps_lockRows _ _ _) fun expired =>
        .bind (keeps_reapJobs rng now _) fun r => ?_
      cases r with
      | error err => exact .bind keeps_rollback fun _ => .pure _
      | ok _ =>
          exact .bind (keeps_select _) fun _ => .bind (keeps_markStaleOffline _ _ _) fun _ =>
            keeps_finish _

end Execution

section Services

open JobService

theorem keeps_resolveProject (user : SessionUser) (projectId : Option ProjectId) :
    (resolveProject user projectId).All (Keeps owner) := by
  cases projectId with
  | none =>
      refine .bind (keeps_select _) fun p => ?_
      cases p <;> exact .pure _
  | some projectId =>
      refine .bind (keeps_select _) fun p => ?_
      cases p <;> exact .pure _

theorem keeps_resolveQueue (id : QueueId) (project : Project) (name : String) :
    (resolveQueue id project name).All (Keeps owner) := by
  unfold resolveQueue
  split
  swap
  · exact .pure _
  refine .bind (keeps_select _) fun queue => ?_
  cases queue with
  | some queue => exact .pure _
  | none =>
      refine .bind (.stmt trivial) fun inserted => ?_
      cases inserted with
      | true => exact .pure _
      | false =>
          refine .bind (keeps_select _) fun queue => ?_
          cases queue <;> exact .pure _

theorem keeps_checkDependencies (ownerId : UserId) (deps : List JobId) (workflowId : Option Nat) :
    (checkDependencies ownerId deps workflowId).All (Keeps owner) := by
  induction deps generalizing workflowId with
  | nil => exact .pure _
  | cons dep deps ih =>
      refine .bind (keeps_select _) fun job => ?_
      cases job with
      | none => exact .pure _
      | some job => exact ih _

theorem keeps_insertJob (tx : TxId) (job : Job) (dependsOn : List JobId) :
    (insertJob tx job dependsOn).All (Keeps owner) := by
  unfold insertJob
  split
  · refine .bind (.stmt rfl) fun inserted => ?_
    cases inserted with
    | false => exact .pure _
    | true =>
        split
        · split
          · exact .bind (.stmt fun _ => rfl) fun _ => .bind keeps_commit fun _ => .pure _
          · exact .pure _
        · exact .pure _
  · exact .pure _

theorem keeps_recover (user : SessionUser) (data : JobCreate) :
    (recover user data).All (Keeps owner) := by
  refine .bind keeps_rollback fun _ => ?_
  split
  · exact .pure _
  · split
    · exact .pure _
    · refine .bind (keeps_select _) fun job => ?_
      cases job <;> exact .pure _

theorem keeps_create (tx : TxId) (user : SessionUser) (data : JobCreate) (ids : FreshIds)
    (now : Time) : (create tx user data ids now).All (Keeps owner) := by
  refine .bind (keeps_resolveProject user _) fun project => ?_
  cases project with
  | error err => exact .pure _
  | ok project =>
      refine .bind (keeps_resolveQueue _ _ _) fun queue => ?_
      cases queue with
      | error err => exact .pure _
      | ok queue =>
          refine .bind (keeps_checkDependencies _ _ _) fun workflowId => ?_
          cases workflowId with
          | error err => exact .pure _
          | ok workflowId =>
              dsimp only
              split
              · refine .bind (keeps_insertJob tx _ _) fun inserted => ?_
                cases inserted with
                | true => exact .pure _
                | false => exact keeps_recover user data
              · exact .pure _

theorem keeps_enqueue (tx : TxId) (user : SessionUser) (data : JobCreate) (ids : FreshIds) :
    (enqueue tx user data ids).All (Keeps owner) := by
  refine .bind keeps_begin fun now => .bind ?_ fun job => ?_
  · unfold preCheck
    split
    · split
      · exact .bind (keeps_select _) fun _ => .pure _
      · exact .pure _
    · exact .pure _
  · cases job with
    | error err => exact .bind keeps_rollback fun _ => .pure _
    | ok job =>
        cases job with
        | some job => exact .bind keeps_rollback fun _ => .pure _
        | none =>
            exact .bind (keeps_create tx user data ids now) fun _ =>
              .bind keeps_rollback fun _ => .pure _

theorem keeps_transition (ownerId : UserId) (jobId : JobId) {u : Time → GuardedUpdate}
    (event : JobEvent) (conflict : String)
    (h : ∀ now job, ((u now).set job).content = job.content) :
    (transition ownerId jobId u event conflict).All (Keeps owner) := by
  refine .bind keeps_begin fun now => .bind (.stmt fun e => h now e.job) fun row => ?_
  cases row with
  | some e => exact keeps_finish _
  | none =>
      refine .bind (keeps_select _) fun job => .bind keeps_rollback fun _ => ?_
      cases job <;> exact .pure _

theorem keeps_cancel (ownerId : UserId) (jobId : JobId) : (cancel ownerId jobId).All (Keeps owner) :=
  keeps_transition ownerId jobId _ _ fun _ _ => rfl

theorem keeps_requeue (ownerId : UserId) (jobId : JobId) :
    (requeue ownerId jobId).All (Keeps owner) :=
  keeps_transition ownerId jobId _ _ fun _ _ => rfl

theorem keeps_flush (tx : TxId) (jobs : List Job) : (flush tx jobs).All (Keeps owner) := by
  induction jobs with
  | nil => exact .pure _
  | cons job jobs ih =>
      rw [flush]
      split
      · refine .bind (.stmt rfl) fun inserted => ?_
        cases inserted with
        | true => exact ih
        | false => exact .pure _
      · exact .pure _

theorem keeps_resolveTarget (user : SessionUser) (item : BatchItem) :
    (resolveTarget user item).All (Keeps owner) := by
  refine .bind (keeps_resolveProject user _) fun project => ?_
  cases project with
  | error err => exact .pure _
  | ok project => exact keeps_resolveQueue _ _ _

theorem keeps_stageItems (tx : TxId) (user : SessionUser) (batchId : Nat) (now : Time)
    (items : List BatchItem) (cache : List ((Option ProjectId × String) × Queue))
    (staged : List Job) (storable : Bool) :
    (stageItems tx user batchId now items cache staged storable).All (Keeps owner) := by
  induction items generalizing cache staged storable with
  | nil =>
      cases storable with
      | false => exact .pure _
      | true =>
          refine .bind (keeps_flush tx staged) fun flushed => ?_
          cases flushed <;> exact .pure _
  | cons item items ih =>
      rw [stageItems]
      split
      · exact .bind (ih _ _ _) fun _ => .pure _
      · split
        · refine .bind (keeps_flush tx staged) fun flushed => ?_
          cases flushed with
          | false => exact .pure _
          | true =>
              refine .bind (keeps_resolveTarget user item) fun queue => ?_
              cases queue with
              | error err => exact .pure _
              | ok queue => exact .bind (ih _ _ _) fun _ => .pure _
        · exact .pure _

theorem keeps_enqueueBatch (tx : TxId) (user : SessionUser) (items : List BatchItem)
    (batchId : Nat) : (enqueueBatch tx user items batchId).All (Keeps owner) := by
  refine .bind keeps_begin fun now =>
    .bind (keeps_stageItems tx user batchId now items _ _ _) fun r => ?_
  cases r with
  | ok jobs => exact keeps_finish _
  | error err => exact keeps_raise err

theorem keeps_createQueue (user : SessionUser) (projectId : Option ProjectId) (queue : Queue) :
    (QueueService.create user projectId queue).All (Keeps owner) := by
  refine .bind keeps_begin fun _ => .bind (keeps_resolveProject user projectId) fun project => ?_
  cases project with
  | error err => exact keeps_raise err
  | ok project =>
      refine .bind (.stmt trivial) fun inserted => ?_
      cases inserted with
      | true => exact keeps_finish _
      | false => exact keeps_raise _

theorem keeps_updateQueue (user : SessionUser) (queueId : QueueId) (fields : List QueueField) :
    (QueueService.update user queueId fields).All (Keeps owner) := by
  refine .bind keeps_begin fun _ => .bind (keeps_select _) fun queue => ?_
  cases queue with
  | none => exact keeps_raise _
  | some loaded =>
      dsimp only
      split
      · exact keeps_raise _
      · exact .bind (.stmt trivial) fun _ => keeps_finish _

theorem keeps_createSchedule (cron : CronClock) (user : SessionUser) (data : ScheduleCreate)
    (id : ScheduleId) (queueId : QueueId) (h : owner id = user.id) :
    (ScheduleService.create cron user data id queueId).All (Keeps owner) := by
  have hstage (now : Time) :
      (ScheduleService.stage cron user data id queueId now).All (Keeps owner) := by
    refine .bind (keeps_resolveProject user _) fun project => ?_
    cases project with
    | error err => exact .pure _
    | ok project =>
        refine .bind ?_ fun queue => ?_
        · unfold ScheduleService.resolveQueue
          split
          swap
          · exact .pure _
          refine .bind (keeps_select _) fun queue => ?_
          cases queue with
          | some queue => exact .pure _
          | none =>
              refine .bind (.stmt trivial) fun inserted => ?_
              cases inserted <;> exact .pure _
        · cases queue with
          | error err => exact .pure _
          | ok queue =>
              dsimp only
              split
              · exact .pure _
              · split
                · split
                  · refine .bind (.stmt (by simp [Keeps, InsertsRow, ScheduleService.build, h]))
                      fun inserted => ?_
                    cases inserted <;> exact .pure _
                  · exact .pure _
                · exact .pure _
  refine .bind keeps_begin fun now => .bind (hstage now) fun s => ?_
  cases s with
  | ok s => exact keeps_finish _
  | error err => exact keeps_raise err

theorem keeps_deleteSchedule (user : SessionUser) (scheduleId : ScheduleId) :
    (ScheduleService.delete user scheduleId).All (Keeps owner) := by
  refine .bind keeps_begin fun _ => .bind (.bind (keeps_select _) fun s => ?_) fun s => ?_
  · cases s <;> exact .pure _
  · cases s with
    | error err => exact keeps_raise err
    | ok s => exact .bind (.stmt fun s => .inr (by cases s <;> rfl)) fun _ => keeps_finish _

theorem keeps_createProject (user : SessionUser) (name : String) (id : ProjectId) :
    (TenancyService.createProject user name id).All (Keeps owner) := by
  refine .bind keeps_begin fun _ => .bind (.stmt trivial) fun inserted => ?_
  cases inserted with
  | true => exact keeps_finish _
  | false => exact keeps_raise _

theorem keeps_updateRole (user : SessionUser) (userId : UserId) (role : UserRole) :
    (Request.updateRoleOf user userId role).All (Keeps owner) := by
  unfold Request.updateRoleOf
  split
  · exact .pure _
  · refine .bind (.stmt trivial) fun row => ?_
    cases row with
    | none => exact keeps_raise _
    | some updated => exact keeps_finish _

end Services

-- The calls that move the cursor of a schedule.
def CronCall.movesCursor : CronCall → Bool
  | .sweep .. => true
  | .request _ (.updateSchedule ..) => true
  | _ => false

theorem keeps_call (tx : TxId) (c : Call) : (c.body tx).All (Keeps owner) := by
  cases c with
  | registerWorker workerId name concurrency =>
      exact keeps_return _ (fun _ => Value.unit) (keeps_registerWorker workerId name concurrency)
  | heartbeat workerId leaseSeconds rank =>
      exact keeps_return _ _ (keeps_heartbeat workerId leaseSeconds rank)
  | setWorkerStatus workerId status stopped =>
      exact keeps_return _ (fun _ => Value.unit) (keeps_setWorkerStatus workerId status stopped)
  | claimJobs args => exact keeps_return _ _ (keeps_claimJobs tx args)
  | finalize claim job workerId f => exact keeps_finalizer tx claim job workerId f
  | reapOnce offlineAfterSeconds rank rng =>
      exact keeps_return _ _ (keeps_reapOnce offlineAfterSeconds rank rng)
  | enqueue user data ids => exact keeps_return _ _ (keeps_enqueue tx user data ids)
  | cancel ownerId jobId => exact keeps_return _ _ (keeps_cancel ownerId jobId)
  | requeue ownerId jobId => exact keeps_return _ _ (keeps_requeue ownerId jobId)
  | createQueue user projectId queue =>
      exact keeps_return _ _ (keeps_createQueue user projectId queue)
  | updateQueue user queueId fields =>
      exact keeps_return _ _ (keeps_updateQueue user queueId fields)

-- A request that does not patch a schedule keeps the rules, statement by statement.
theorem keeps_handle (cron : CronClock) (tx : TxId) {r : Request}
    (hmay : mayFire owner (.request user r) = true)
    (h : CronCall.movesCursor (.request user r) = false) :
    (r.handle cron tx user).All (Keeps owner) := by
  by_cases hmut : r.mutates = false
  · exact keeps_of_reads (reads_handle cron tx hmut)
  · cases r with
    | createJob data header ids => exact keeps_return _ _ (keeps_enqueue tx user _ ids)
    | createBatch items batchId => exact keeps_return _ _ (keeps_enqueueBatch tx user items batchId)
    | cancelJob jobId => exact keeps_return _ _ (keeps_cancel _ jobId)
    | requeueJob jobId => exact keeps_return _ _ (keeps_requeue _ jobId)
    | requeueDeadJob jobId => exact keeps_return _ _ (keeps_requeue _ jobId)
    | createQueue projectId queue => exact keeps_return _ _ (keeps_createQueue user projectId queue)
    | updateQueue queueId fields => exact keeps_return _ _ (keeps_updateQueue user queueId fields)
    | pauseQueue queueId => exact keeps_return _ _ (keeps_updateQueue user queueId _)
    | resumeQueue queueId => exact keeps_return _ _ (keeps_updateQueue user queueId _)
    | createSchedule data id queueId =>
        have howner : owner id = user.id := by simpa [mayFire] using hmay
        exact keeps_return _ _ (keeps_createSchedule cron user data id queueId howner)
    | deleteSchedule scheduleId =>
        exact keeps_return _ (Response.ofExcept fun _ => .none) (keeps_deleteSchedule user scheduleId)
    | createProject name id => exact keeps_return _ _ (keeps_createProject user name id)
    | updateRole userId role => exact keeps_return _ _ (keeps_updateRole user userId role)
    | updateSchedule scheduleId fields => cases h
    | _ => exact absurd rfl hmut

theorem keeps_body (cron : CronClock) (tx : TxId) {c : CronCall} (hmay : mayFire owner c = true)
    (h : c.movesCursor = false) : (c.body cron tx).All (Keeps owner) := by
  cases c with
  | sweep ids rank => cases h
  | request user r => exact keeps_return _ _ (keeps_handle cron tx hmay h)
  | call c => exact keeps_return _ _ (keeps_call tx c)

end Programs

end Chronos
