import Chronos.Models.Tables
import Mathlib.Data.List.Sort
import Mathlib.Data.Rat.Floor

namespace Chronos

-- An UPDATE of jobs: the WHERE clause on the row, and the values it sets.
structure GuardedUpdate where
  guard : Job → Bool
  set : Job → Job

-- The WHERE clause of every transition out of RUNNING.
def leaseGuard (workerId : WorkerId) (job : Job) : Bool :=
  job.status = .running ∧ job.lockedBy = some workerId

namespace JobRepository

def claimValues (workerId : WorkerId) (leaseSeconds : ℚ) (now : Time) (job : Job) : Job :=
  { job with
    status := .running
    lockedBy := some workerId
    attemptCount := job.attemptCount + 1
    startedAt := some now
    leaseExpiresAt := some (now + leaseSeconds) }

def extendLeases (workerId : WorkerId) (leaseSeconds : ℚ) (now : Time) : GuardedUpdate where
  guard job := job.lockedBy = some workerId ∧ job.status = .running
  set job := { job with leaseExpiresAt := some (now + leaseSeconds) }

def expiredWhere (now : Time) (job : Job) : Bool :=
  job.status = .running ∧ job.leaseExpiresAt.any (· < now)

def finishSuccess (workerId : WorkerId) (resultPayload : Option Json) (now : Time) :
    GuardedUpdate where
  guard := leaseGuard workerId
  set job :=
    { job with
      status := .succeeded
      result := resultPayload
      finishedAt := some now
      lockedBy := none
      leaseExpiresAt := none
      lastError := none }

def finishFailure (workerId : WorkerId) (error : String) (retry : Bool)
    (retryDelaySeconds : ℚ) (now : Time) : GuardedUpdate where
  guard := leaseGuard workerId
  set job :=
    let job := { job with lockedBy := none, leaseExpiresAt := none, lastError := some error }
    if retry then { job with status := .pending, runAt := now + retryDelaySeconds }
    else { job with status := .dead, finishedAt := some now }

def release (workerId : WorkerId) (now : Time) : GuardedUpdate where
  guard := leaseGuard workerId
  set job :=
    { job with
      status := .pending
      attemptCount := job.attemptCount - 1
      runAt := now
      lockedBy := none
      leaseExpiresAt := none }

def cancel (ownerId : UserId) (now : Time) : GuardedUpdate where
  guard job := job.ownerId = ownerId ∧ job.status = .pending
  set job := { job with status := .cancelled, finishedAt := some now }

def requeue (ownerId : UserId) (now : Time) : GuardedUpdate where
  guard job := job.ownerId = ownerId ∧ (job.status = .dead ∨ job.status = .cancelled)
  set job :=
    { job with
      status := .pending
      attemptCount := 0
      runAt := now
      finishedAt := none
      result := none
      lockedBy := none
      leaseExpiresAt := none }

def setAiSummary (summary : String) : GuardedUpdate where
  guard _ := true
  set job := { job with aiSummary := some summary }

def getForOwner (jobId : JobId) (ownerId : UserId) (v : Snapshot) : Option Job :=
  (v.job jobId).bind fun e => if e.job.ownerId = ownerId then some e.job else none

def getByIdempotencyKey (ownerId : UserId) (key : String) (v : Snapshot) : Option Job :=
  (v.jobsWhere fun e => e.job.ownerId = ownerId ∧ e.job.idempotencyKey = some key).head?.map
    fun p => p.2.job

-- The optional conditions of list_for_owner.
structure JobFilter where
  status : Option JobStatus
  queue : Option String
  batchId : Option Nat

def JobFilter.admits (f : JobFilter) (job : Job) : Bool :=
  f.status.all (fun x => job.status = x) ∧ f.queue.all (fun x => job.queue = x) ∧
    f.batchId.all fun x => job.batchId = some x

-- The page, newest job first, and the total.
def listForOwner (ownerId : UserId) (f : JobFilter) (limit offset : Nat) (v : Snapshot) :
    List Job × Nat :=
  let rows := (v.jobsWhere fun e => e.job.ownerId = ownerId ∧ f.admits e.job).map fun p => p.2.job
  (((rows.insertionSort fun a b => b.createdAt ≤ a.createdAt).drop offset).take limit, rows.length)

end JobRepository

-- uq_jobs_owner_idempotency: at most one job per owner and key that is not null.
def uqJobsOwnerIdempotency (job : Job) : ∀ k, Row k → Bool
  | .job _, e =>
      job.idempotencyKey.isSome ∧ e.job.ownerId = job.ownerId ∧
        e.job.idempotencyKey = job.idempotencyKey
  | _, _ => false

namespace JobEntry

-- What a statement leaves of the entry: the row updated, the event noted.
def amend (set : Job → Job) (event : JobEvent) (e : JobEntry) : JobEntry :=
  { e with job := set e.job, log := event :: e.log }

def assign (set : Job → Job) (e : JobEntry) : JobEntry := { e with job := set e.job }

def claim (tx : Txn.TxId) (workerId : WorkerId) (leaseSeconds : ℚ) (now : Time) (pass : Pass)
    (e : JobEntry) : JobEntry :=
  e.amend (JobRepository.claimValues workerId leaseSeconds now) (.claimed tx workerId pass)

end JobEntry

namespace JobRepository

structure Aging where
  intervalSeconds : Int
  maxBoost : Int
deriving DecidableEq

-- _priority_key
def priorityKey (aging : Aging) (now : Time) (job : Job) : Int :=
  if aging.intervalSeconds > 0 then
    job.priority + min ⌊(now - job.runAt) / aging.intervalSeconds⌋ aging.maxBoost
  else job.priority

-- ORDER BY priority_key DESC, run_at ASC, created_at ASC
def claimsBefore (aging : Aging) (now : Time) (a b : Job) : Bool :=
  priorityKey aging now b < priorityKey aging now a ∨
    priorityKey aging now a = priorityKey aging now b ∧
      (a.runAt < b.runAt ∨ a.runAt = b.runAt ∧ a.createdAt ≤ b.createdAt)

def inOrder (aging : Aging) (now : Time) (rows : List (JobId × JobEntry)) : List JobId :=
  (rows.insertionSort fun a b => claimsBefore aging now a.2.job b.2.job).map Prod.fst

-- EXISTS a dependency whose job has not succeeded.
def unmetDep (v : Snapshot) (e : JobEntry) : Bool :=
  e.dependsOn.any fun d => (v.job d).any fun dep => dep.job.status ≠ .succeeded

-- What a claim_jobs call is made with.
structure ClaimArgs where
  workerId : WorkerId
  queues : List String
  limit : Nat
  leaseSeconds : ℚ
  shardKey : Option Int
  aging : Aging

-- base_filters on a job, its queue row and the dependency subquery.
def baseFilters (a : ClaimArgs) (now : Time) (v : Snapshot) (e : JobEntry) (q : Queue) : Bool :=
  e.job.status = .pending ∧ e.job.runAt ≤ now ∧ e.job.queue ∈ a.queues ∧ q.paused = false ∧
    unmetDep v e = false ∧ a.shardKey.all fun s => q.shardKey = s

-- The WHERE clause of the uncapped pass. Re-evaluated on a newer version of the job it still
-- takes the other tables from the snapshot of its statement.
def uncappedWhere (a : ClaimArgs) (now : Time) (v : Snapshot) (e : JobEntry) : Bool :=
  (v.queue e.job.queueId).any fun q => baseFilters a now v e q ∧ q.maxConcurrency = none

def cappedWhere (now : Time) (queueId : QueueId) (e : JobEntry) : Bool :=
  e.job.status = .pending ∧ e.job.runAt ≤ now ∧ e.job.queueId = queueId

def cappedQueueWhere (queues : List String) (q : Queue) : Bool :=
  q.name ∈ queues ∧ q.paused = false ∧ q.maxConcurrency.isSome

def countRunning (queueId : QueueId) (v : Snapshot) : Int :=
  (v.jobsWhere fun e => e.job.queueId = queueId ∧ e.job.status = .running).length

-- FOR UPDATE SKIP LOCKED with a LIMIT: rows that are locked, or no longer qualify, do not count.
def lockRows (cond : JobEntry → Bool) : Nat → List JobId → Tx (List JobEntry)
  | 0, _ => pure []
  | _, [] => pure []
  | n + 1, id :: ids => do
      match ← lockJob id cond with
      | some e => return e :: (← lockRows cond n ids)
      | none => lockRows cond (n + 1) ids

-- UPDATE jobs … FROM candidates RETURNING jobs.*
def updateCandidates (tx : Txn.TxId) (a : ClaimArgs) (now : Time) (pass : Pass) :
    List JobEntry → Tx (List Job)
  | [] => pure []
  | e :: es => do
      let row ← writeJob e.job.id (JobEntry.claim tx a.workerId a.leaseSeconds now pass)
      let rest ← updateCandidates tx a now pass es
      return (row.map JobEntry.job).toList ++ rest

-- _claim_where: lock the candidates a scan found, flip them to RUNNING.
def claimWhere (tx : Txn.TxId) (a : ClaimArgs) (now : Time) (pass : Pass)
    (scan : Snapshot → List JobId × (JobEntry → Bool)) (limit : Nat) : Tx (List Job) := do
  let (candidates, cond) ← select scan
  let locked ← lockRows cond limit candidates
  updateCandidates tx a now pass locked

def uncappedScan (a : ClaimArgs) (now : Time) (v : Snapshot) : List JobId × (JobEntry → Bool) :=
  (inOrder a.aging now (v.jobsWhere (uncappedWhere a now v)), uncappedWhere a now v)

def cappedScan (a : ClaimArgs) (now : Time) (queueId : QueueId) (v : Snapshot) :
    List JobId × (JobEntry → Bool) :=
  (inOrder a.aging now (v.jobsWhere (cappedWhere now queueId)), cappedWhere now queueId)

-- The capped queue rows, locked in the order of their ids, with their caps.
def lockQueues (queues : List String) : List QueueId → Tx (List (QueueId × Int))
  | [] => pure []
  | id :: ids => do
      let row ← lockQueue id (cappedQueueWhere queues)
      let rest ← lockQueues queues ids
      return ((row.bind Queue.maxConcurrency).map fun cap => (id, cap)).toList ++ rest

def cappedQueues (queues : List String) (v : Snapshot) : List QueueId :=
  (v.queueIds.filter fun id => (v.queue id).any (cappedQueueWhere queues)).insertionSort (· ≤ ·)

def claimFromQueues (tx : Txn.TxId) (a : ClaimArgs) (now : Time) :
    List (QueueId × Int) → Nat → Tx (List Job)
  | [], _ => pure []
  | (queueId, cap) :: rows, remaining =>
      if remaining = 0 then pure []
      else do
        let running ← select (countRunning queueId)
        let capacity := min (cap - running) remaining
        if capacity ≤ 0 then claimFromQueues tx a now rows remaining
        else do
          let batch ← claimWhere tx a now .capped (cappedScan a now queueId) capacity.toNat
          let rest ← claimFromQueues tx a now rows (remaining - batch.length)
          return batch ++ rest

-- _claim_capped
def claimCapped (tx : Txn.TxId) (a : ClaimArgs) (now : Time) (limit : Nat) : Tx (List Job) := do
  let ids ← select (cappedQueues a.queues)
  let rows ← lockQueues a.queues ids
  claimFromQueues tx a now rows limit

def claimBatch (tx : Txn.TxId) (a : ClaimArgs) (now : Time) : Tx (List Job) := do
  let claimed ← claimWhere tx a now .uncapped (uncappedScan a now) a.limit
  let remaining := a.limit - claimed.length
  if remaining > 0 then do
    let more ← claimCapped tx a now remaining
    return claimed ++ more
  else return claimed

end JobRepository

end Chronos
