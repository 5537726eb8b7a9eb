import Chronos.Domain.Retry

namespace Chronos

abbrev JobId := Nat
abbrev UserId := Nat
abbrev QueueId := Nat
abbrev WorkerId := Nat
abbrev ProjectId := Nat
abbrev OrgId := Nat
-- Seconds on the database clock.
abbrev Time := ℚ
-- A JSON document, by the compact encoding of what a jsonb column holds.
abbrev Json := String

inductive JobStatus
  | pending
  | running
  | succeeded
  | cancelled
  | dead
deriving DecidableEq, Repr

-- The transitions listed on JobStatus.
def JobStatus.allows : JobStatus → JobStatus → Bool
  | .pending, .running => true
  | .pending, .cancelled => true
  | .running, .succeeded => true
  | .running, .pending => true
  | .running, .dead => true
  | .dead, .pending => true
  | .cancelled, .pending => true
  | _, _ => false

inductive AttemptStatus
  | running
  | succeeded
  | failed
  | lost
  | aborted
deriving DecidableEq, Repr

structure Job where
  id : JobId
  ownerId : UserId
  queueId : QueueId
  queue : String
  taskName : String
  batchId : Option Nat
  workflowId : Option Nat
  payload : Json
  status : JobStatus
  priority : Int
  runAt : Time
  idempotencyKey : Option String
  maxAttempts : Int
  backoffStrategy : RetryStrategy
  attemptCount : Int
  timeoutSeconds : Int
  backoffBaseSeconds : Int
  backoffFactor : ℚ
  backoffMaxSeconds : Int
  lockedBy : Option WorkerId
  leaseExpiresAt : Option Time
  lastError : Option String
  aiSummary : Option String
  result : Option Json
  createdAt : Time
  startedAt : Option Time
  finishedAt : Option Time
deriving DecidableEq

-- The CHECK constraints of the jobs table.
def Job.checks (job : Job) : Bool :=
  1 ≤ job.maxAttempts ∧ job.maxAttempts ≤ 20 ∧
  -100 ≤ job.priority ∧ job.priority ≤ 100 ∧
  0 ≤ job.backoffBaseSeconds ∧ job.backoffBaseSeconds ≤ 3600 ∧
  1 ≤ job.backoffFactor ∧ job.backoffFactor ≤ 10 ∧
  1 ≤ job.backoffMaxSeconds ∧ job.backoffMaxSeconds ≤ 86400 ∧
  1 ≤ job.timeoutSeconds ∧ job.timeoutSeconds ≤ 86400

-- A row of job_attempts. The rows are kept with the job their job_id names.
structure JobAttempt where
  workerId : Option WorkerId
  attemptNumber : Int
  status : AttemptStatus
  error : Option String
  startedAt : Time
  finishedAt : Option Time
deriving DecidableEq

-- The pass of claim_batch that took a job.
inductive Pass
  | uncapped
  | capped
deriving DecidableEq, Repr

-- The ways a finalizer ends the claim it is called for.
inductive Finish
  | success
  | retry
  | dead
  | release
deriving DecidableEq, Repr

-- Ghost state: what has happened to a job, and in which transaction. No guard of the code reads
-- it. A claim is named by the transaction of its claim_jobs call.
inductive JobEvent
  | created (tx : Nat)
  | claimed (tx : Nat) (workerId : WorkerId) (pass : Pass)
  | finished (claim : Nat) (tx : Nat) (how : Finish)
  | reclaimed (retry : Bool)
  | cancelled
  | requeued
deriving DecidableEq, Repr

-- A job with the rows that belong to it: its attempts, the depends_on_job_id of its rows in
-- job_dependencies, and its history, newest event first.
structure JobEntry where
  job : Job
  attempts : List JobAttempt
  dependsOn : List JobId
  log : List JobEvent
deriving DecidableEq

namespace JobEntry

-- The claim in force: nothing has happened to the job since.
def currentClaim (e : JobEntry) : Option Nat :=
  match e.log with
  | .claimed tx _ _ :: _ => some tx
  | _ => none

-- Two versions of one row: what no operation changes.
structure SameRow (e e' : JobEntry) : Prop where
  id : e'.job.id = e.job.id
  ownerId : e'.job.ownerId = e.job.ownerId
  queueId : e'.job.queueId = e.job.queueId
  idempotencyKey : e'.job.idempotencyKey = e.job.idempotencyKey
  maxAttempts : e'.job.maxAttempts = e.job.maxAttempts

theorem SameRow.refl (e : JobEntry) : SameRow e e := ⟨rfl, rfl, rfl, rfl, rfl⟩

theorem SameRow.trans {e e' e'' : JobEntry} (h : SameRow e e') (h' : SameRow e' e'') :
    SameRow e e'' :=
  ⟨h'.id.trans h.id, h'.ownerId.trans h.ownerId, h'.queueId.trans h.queueId,
    h'.idempotencyKey.trans h.idempotencyKey, h'.maxAttempts.trans h.maxAttempts⟩

end JobEntry

end Chronos
