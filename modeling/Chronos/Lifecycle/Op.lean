import Chronos.Services.Execution
import Chronos.Services.Jobs

namespace Chronos

open Txn (TxId)

-- What a finalizer's transaction does to the row, once its retry decision is taken.
inductive Outcome
  | success (result : Option Json)
  | failure (error : String) (decision : FailureDecision)
  | release

namespace Outcome

def update (workerId : WorkerId) (now : Time) : Outcome → GuardedUpdate
  | .success result => JobRepository.finishSuccess workerId result now
  | .failure error decision =>
      JobRepository.finishFailure workerId error decision.retry decision.delaySeconds now
  | .release => JobRepository.release workerId now

def how : Outcome → Finish
  | .success _ => .success
  | .failure _ decision => if decision.retry then .retry else .dead
  | .release => .release

def status : Outcome → AttemptStatus
  | .success _ => .succeeded
  | .failure _ _ => .failed
  | .release => .aborted

def error : Outcome → Option String
  | .success _ => none
  | .failure error _ => some error
  | .release => some "worker shut down before the job finished"

@[simp] theorem update_guard (o : Outcome) (workerId : WorkerId) (now : Time) :
    (o.update workerId now).guard = leaseGuard workerId := by
  cases o <;> rfl

theorem update_status_ne_running (o : Outcome) (workerId : WorkerId) (now : Time) (job : Job) :
    ((o.update workerId now).set job).status ≠ .running := by
  cases o with
  | failure error decision =>
      obtain ⟨retry, delay⟩ := decision
      cases retry <;> exact fun h => nomatch h
  | _ => exact fun h => nomatch h

end Outcome

-- The operations of a single job: what one committed transaction can do to its row and its
-- attempts.
inductive JobOp
  | claim (tx : TxId) (workerId : WorkerId) (leaseSeconds : ℚ) (now : Time) (pass : Pass)
  | extend (workerId : WorkerId) (leaseSeconds : ℚ) (now : Time)
  | finish (claim tx : TxId) (snapshot : Job) (workerId : WorkerId) (outcome : Outcome)
      (now : Time)
  | reclaim (rng : Draw) (now : Time)
  | cancel (ownerId : UserId) (now : Time)
  | requeue (ownerId : UserId) (now : Time)
  | summarize (text : String)

namespace JobOp

def guarded (u : GuardedUpdate) (f : JobEntry → JobEntry) (e : JobEntry) : Option JobEntry :=
  if u.guard e.job then some (f e) else none

def claimed (tx : TxId) (workerId : WorkerId) (leaseSeconds : ℚ) (now : Time) (pass : Pass)
    (e : JobEntry) : JobEntry :=
  (e.claim tx workerId leaseSeconds now pass).startAttempt workerId (e.job.attemptCount + 1) now

def finished (claim tx : TxId) (snapshot : Job) (workerId : WorkerId) (o : Outcome) (now : Time)
    (e : JobEntry) : JobEntry :=
  (e.amend (o.update workerId now).set (.finished claim tx o.how)).finishAttempt
    snapshot.attemptCount o.status o.error now

def reclaimed (decision : FailureDecision) (now : Time) (e : JobEntry) : JobEntry :=
  (e.finishAttempt e.job.attemptCount .lost (some (leaseExpiredError e.job.lockedBy)) now).amend
    (reclaimValues (leaseExpiredError e.job.lockedBy) decision now) (.reclaimed decision.retry)

def apply : JobOp → JobEntry → Option JobEntry
  | .claim tx workerId leaseSeconds now pass, e =>
      if e.job.status = .pending ∧ e.job.runAt ≤ now then
        some (claimed tx workerId leaseSeconds now pass e)
      else none
  | .extend workerId leaseSeconds now, e =>
      let u := JobRepository.extendLeases workerId leaseSeconds now
      guarded u (JobEntry.assign u.set) e
  | .finish c tx snapshot workerId o now, e =>
      guarded (o.update workerId now) (finished c tx snapshot workerId o now) e
  | .reclaim rng now, e =>
      if JobRepository.expiredWhere now e.job then
        match decideFailure (policyOf e.job) e.job.attemptCount rng with
        | .ok decision => some (reclaimed decision now e)
        | .error _ => none
      else none
  | .cancel ownerId now, e =>
      let u := JobRepository.cancel ownerId now
      guarded u (JobEntry.amend u.set .cancelled) e
  | .requeue ownerId now, e =>
      let u := JobRepository.requeue ownerId now
      guarded u (JobEntry.amend u.set .requeued) e
  | .summarize text, e => some (e.assign (JobRepository.setAiSummary text).set)

-- Inversion of `apply`.
inductive Applies : JobOp → JobEntry → JobEntry → Prop
  | claim (tx : TxId) (workerId : WorkerId) (leaseSeconds : ℚ) (now : Time) (pass : Pass)
      (e : JobEntry) (hpending : e.job.status = .pending) (hready : e.job.runAt ≤ now) :
      Applies (.claim tx workerId leaseSeconds now pass) e
        (claimed tx workerId leaseSeconds now pass e)
  | extend (workerId : WorkerId) (leaseSeconds : ℚ) (now : Time) (e : JobEntry)
      (hlocked : e.job.lockedBy = some workerId) (hrunning : e.job.status = .running) :
      Applies (.extend workerId leaseSeconds now) e
        (e.assign (JobRepository.extendLeases workerId leaseSeconds now).set)
  | finish (claim tx : TxId) (snapshot : Job) (workerId : WorkerId) (o : Outcome) (now : Time)
      (e : JobEntry) (hrunning : e.job.status = .running)
      (hlocked : e.job.lockedBy = some workerId) :
      Applies (.finish claim tx snapshot workerId o now) e
        (finished claim tx snapshot workerId o now e)
  | reclaim (rng : Draw) (now : Time) (decision : FailureDecision) (e : JobEntry)
      (hrunning : e.job.status = .running)
      (hdecision : decideFailure (policyOf e.job) e.job.attemptCount rng = .ok decision) :
      Applies (.reclaim rng now) e (reclaimed decision now e)
  | cancel (ownerId : UserId) (now : Time) (e : JobEntry) (howner : e.job.ownerId = ownerId)
      (hpending : e.job.status = .pending) :
      Applies (.cancel ownerId now) e
        (e.amend (JobRepository.cancel ownerId now).set .cancelled)
  | requeue (ownerId : UserId) (now : Time) (e : JobEntry) (howner : e.job.ownerId = ownerId)
      (hended : e.job.status = .dead ∨ e.job.status = .cancelled) :
      Applies (.requeue ownerId now) e
        (e.amend (JobRepository.requeue ownerId now).set .requeued)
  | summarize (text : String) (e : JobEntry) :
      Applies (.summarize text) e (e.assign (JobRepository.setAiSummary text).set)

theorem leaseGuard_iff {workerId : WorkerId} {job : Job} :
    leaseGuard workerId job = true ↔ job.status = .running ∧ job.lockedBy = some workerId := by
  simp [leaseGuard]

end JobOp

end Chronos
