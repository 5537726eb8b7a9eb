import Chronos.Txn.Pool
import Chronos.Services.Execution
import Chronos.Services.Queues

namespace Chronos

open Txn (TxId)

-- How an execution of a claimed job ends.
inductive Finalizer
  | completeSuccess (result : Option Json)
  | completeFailure (error : String) (rng : Draw) (summary : Option String)
  | releaseJob

-- The calls that workers and the API make. A finalizer is called with the snapshot `job` that
-- the claim_jobs call run as `claim` returned.
inductive Call
  | registerWorker (workerId : WorkerId) (name : String) (concurrency : Int)
  | heartbeat (workerId : WorkerId) (leaseSeconds : ℚ) (rank : JobId → Nat)
  | setWorkerStatus (workerId : WorkerId) (status : WorkerStatus) (stopped : Bool)
  | claimJobs (args : JobRepository.ClaimArgs)
  | finalize (claim : TxId) (job : Job) (workerId : WorkerId) (f : Finalizer)
  | reapOnce (offlineAfterSeconds : Int) (rank : JobId → Nat) (rng : JobId → Draw)
  | enqueue (user : SessionUser) (data : JobCreate) (ids : FreshIds)
  | cancel (ownerId : UserId) (jobId : JobId)
  | requeue (ownerId : UserId) (jobId : JobId)
  | createQueue (user : SessionUser) (projectId : Option ProjectId) (queue : Queue)
  | updateQueue (user : SessionUser) (queueId : QueueId) (fields : List QueueField)

inductive Value
  | unit
  | bool (b : Bool)
  | count (n : Nat)
  | jobs (jobs : List Job)
  | job (job : Job)
  | enqueued (job : Job) (created : Bool)
  | queue (queue : Queue)
  | raised (err : PyError)

def Value.ofExcept {α : Type} (f : α → Value) : Except PyError α → Value
  | .ok a => f a
  | .error err => .raised err

abbrev State := Txn.Pool Key Row Time Call Value
abbrev Event := Txn.Event Time Call

-- The executions of `claim` get the jobs its call returned to its worker; a request has passed
-- the schema.
def mayCall (s : State) : Call → Bool
  | .finalize claim job workerId _ =>
      match s.thread claim with
      | some ⟨.claimJobs args, some (.pure (.jobs jobs))⟩ => args.workerId = workerId ∧ job ∈ jobs
      | _ => false
  | .enqueue _ data _ => data.accepted
  | .createQueue _ _ queue => queue.checks
  | .updateQueue _ _ fields => fields.all QueueField.accepted
  | _ => true

def Finalizer.body (tx claim : TxId) (job : Job) (workerId : WorkerId) : Finalizer → Tx Value
  | .completeSuccess result => do
      return .bool (← ExecutionService.completeSuccess tx claim job workerId result)
  | .completeFailure error rng summary => do
      return .ofExcept .bool
        (← ExecutionService.completeFailure tx claim job workerId error rng summary)
  | .releaseJob => do
      return .bool (← ExecutionService.releaseJob tx claim job workerId)

def Call.body (tx : TxId) : Call → Tx Value
  | .registerWorker workerId name concurrency => do
      ExecutionService.registerWorker workerId name concurrency
      return .unit
  | .heartbeat workerId leaseSeconds rank => do
      return .count (← ExecutionService.heartbeat workerId leaseSeconds rank)
  | .setWorkerStatus workerId status stopped => do
      ExecutionService.setWorkerStatus workerId status stopped
      return .unit
  | .claimJobs args => do
      return .jobs (← ExecutionService.claimJobs tx args)
  | .finalize claim job workerId f => f.body tx claim job workerId
  | .reapOnce offlineAfterSeconds rank rng => do
      return .ofExcept .count (← ExecutionService.reapOnce offlineAfterSeconds rank rng)
  | .enqueue user data ids => do
      return .ofExcept (fun r => .enqueued r.1 r.2) (← JobService.enqueue tx user data ids)
  | .cancel ownerId jobId => do
      return .ofExcept .job (← JobService.cancel ownerId jobId)
  | .requeue ownerId jobId => do
      return .ofExcept .job (← JobService.requeue ownerId jobId)
  | .createQueue user projectId queue => do
      return .ofExcept .queue (← QueueService.create user projectId queue)
  | .updateQueue user queueId fields => do
      return .ofExcept .queue (← QueueService.update user queueId fields)

def system : Txn.System Key Row Time Call Value := ⟨mayCall, Call.body⟩

-- A database that has served no call yet: organizations with their projects, nothing else.
structure Initial (m : Db) : Prop where
  wf : m.WF
  job : ∀ id, m.cell (.job id) = .empty
  queue : ∀ id, m.cell (.queue id) = .empty
  unlocked : ∀ k, (m.cell k).pending = none
  opened : m.opened = []

end Chronos
