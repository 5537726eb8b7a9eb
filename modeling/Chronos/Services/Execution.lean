import Chronos.Repositories.Attempts

namespace Chronos

open Txn (stmt TxId)

-- _policy_of
def policyOf (job : Job) : RetryPolicy where
  maxAttempts := job.maxAttempts
  backoffBaseSeconds := job.backoffBaseSeconds
  backoffFactor := job.backoffFactor
  backoffMaxSeconds := job.backoffMaxSeconds
  strategy := job.backoffStrategy

-- The worker behind a lease may be alive again by the time the sweep reads its name.
def leaseExpiredError (workerId : Option WorkerId) : String :=
  "lease expired (worker " ++ (workerId.map toString).getD "None" ++
    " presumed dead after missing heartbeats)"

-- The assignments the reaper makes to a job it holds the row lock of.
def reclaimValues (error : String) (decision : FailureDecision) (now : Time) (job : Job) : Job :=
  let job := { job with lockedBy := none, leaseExpiresAt := none, lastError := some error }
  if decision.retry then { job with status := .pending, runAt := now + decision.delaySeconds }
  else { job with status := .dead, finishedAt := some now }

namespace ExecutionService

-- Leaving `async with session`: whatever is still open is rolled back.
def exit : Tx Unit := stmt .rollback

def registerWorker (workerId : WorkerId) (name : String) (concurrency : Int) : Tx Unit := do
  let now ← stmt .begin
  let _ ← insertWorker workerId
    { id := workerId, name := name, status := .online, concurrency := concurrency
      lastHeartbeatAt := now, startedAt := now, stoppedAt := none }
  stmt .commit
  exit

-- One UPDATE over several rows: those that qualify in its snapshot, each locked and re-checked
-- in turn. Without an ORDER BY they come in any order, here by a rank the caller of the model
-- picks.
def updateJobs (u : GuardedUpdate) : List JobId → Tx Nat
  | [] => pure 0
  | id :: ids => do
      let row ← recheckJob id (fun e => u.guard e.job) (JobEntry.assign u.set)
      let n ← updateJobs u ids
      return n + if row.isSome then 1 else 0

def scanJobs (guard : Job → Bool) (rank : JobId → Nat) (v : Snapshot) : List JobId :=
  ((v.jobsWhere fun e => guard e.job).map Prod.fst).insertionSort fun a b => rank a ≤ rank b

def heartbeat (workerId : WorkerId) (leaseSeconds : ℚ) (rank : JobId → Nat) : Tx Nat := do
  let now ← stmt .begin
  let _ ← updateWorker workerId (fun _ => true) fun w => { w with lastHeartbeatAt := now }
  -- OFFLINE only: a draining worker stays draining.
  let _ ← updateWorker workerId (fun w => w.status = .offline)
    fun w => { w with status := .online, stoppedAt := none }
  let leases := JobRepository.extendLeases workerId leaseSeconds now
  let ids ← select (scanJobs leases.guard rank)
  let extended ← updateJobs leases ids
  stmt .commit
  exit
  return extended

def setWorkerStatus (workerId : WorkerId) (status : WorkerStatus) (stopped : Bool) : Tx Unit := do
  let now ← stmt .begin
  let _ ← updateWorker workerId (fun _ => true) fun w =>
    let w := { w with status := status }
    if stopped then { w with stoppedAt := some now } else w
  stmt .commit
  exit

-- The attempt rows, inserted when the commit flushes them.
def startAttempts (workerId : WorkerId) (now : Time) : List Job → Tx Unit
  | [] => pure ()
  | job :: jobs => do
      let _ ← writeJob job.id (JobEntry.startAttempt workerId job.attemptCount now)
      startAttempts workerId now jobs

def claimJobs (tx : TxId) (a : JobRepository.ClaimArgs) : Tx (List Job) := do
  let now ← stmt .begin
  let jobs ← JobRepository.claimBatch tx a now
  startAttempts a.workerId now jobs
  stmt .commit
  exit
  return jobs

-- The part the three finalizers share: the guarded UPDATE, then the attempt of the snapshot. A
-- call whose UPDATE matches no row rolls back and returns False. `claim` names the claim whose
-- snapshot the call is made with.
def finalize (tx claim : TxId) (job : Job) (u : GuardedUpdate) (how : Finish)
    (status : AttemptStatus) (error : Option String) (now : Time) : Tx Bool := do
  let updated ← updateJob job.id (fun e => u.guard e.job)
    (JobEntry.amend u.set (.finished claim tx how))
  match updated with
  | none => do
      stmt .rollback
      exit
      return false
  | some _ => do
      let _ ← writeJob job.id (JobEntry.finishAttempt job.attemptCount status error now)
      stmt .commit
      exit
      return true

def completeSuccess (tx claim : TxId) (job : Job) (workerId : WorkerId) (result : Option Json) :
    Tx Bool := do
  let now ← stmt .begin
  finalize tx claim job (JobRepository.finishSuccess workerId result now) .success
    .succeeded none now

-- The detached transaction that stores the summary of a job that went to the DLQ.
def storeSummary (jobId : JobId) (summary : String) : Tx Unit := do
  let _ ← stmt .begin
  let u := JobRepository.setAiSummary summary
  let _ ← updateJob jobId (fun e => u.guard e.job) (JobEntry.assign u.set)
  stmt .commit
  exit

-- `summary` is what generate_summary returns, `none` also when anything about it fails.
def completeFailure (tx claim : TxId) (job : Job) (workerId : WorkerId) (error : String)
    (rng : Draw) (summary : Option String) : Tx (Except PyError Bool) :=
  match decideFailure (policyOf job) job.attemptCount rng with
  | .error e => pure (.error e)
  | .ok decision => do
      let now ← stmt .begin
      let done ← finalize tx claim job
        (JobRepository.finishFailure workerId error decision.retry decision.delaySeconds now)
        (if decision.retry then .retry else .dead) .failed (some error) now
      if done && !decision.retry then
        match summary with
        | some text =>
            if text = "" then return .ok done
            else do
              storeSummary job.id text
              return .ok done
        | none => return .ok done
      else return .ok done

def releaseJob (tx claim : TxId) (job : Job) (workerId : WorkerId) : Tx Bool := do
  let now ← stmt .begin
  finalize tx claim job (JobRepository.release workerId now) .release .aborted
    (some "worker shut down before the job finished") now

def REAPER_ADVISORY_LOCK_KEY : Nat := 0x5EA9E4

def expiredLimit : Nat := 100

-- The body of the sweep for the jobs it has locked. Their rows are the newest versions.
def reapJobs (rng : JobId → Draw) (now : Time) : List JobEntry → Tx (Except PyError Unit)
  | [] => pure (.ok ())
  | e :: es => do
      let job := e.job
      let error := leaseExpiredError job.lockedBy
      let _ ← writeJob job.id
        (JobEntry.finishAttempt job.attemptCount .lost (some error) now)
      match decideFailure (policyOf job) job.attemptCount (rng job.id) with
      | .error err => pure (.error err)
      | .ok decision => do
          let _ ← writeJob job.id
            (JobEntry.amend (reclaimValues error decision now) (.reclaimed decision.retry))
          reapJobs rng now es

def staleWhere (offlineAfterSeconds : Int) (now : Time) (w : Worker) : Bool :=
  w.status ≠ .offline ∧ w.lastHeartbeatAt < now - offlineAfterSeconds

def markStaleOffline (offlineAfterSeconds : Int) (now : Time) : List WorkerId → Tx Unit
  | [] => pure ()
  | id :: ids => do
      let _ ← recheckWorker id (staleWhere offlineAfterSeconds now)
        fun w => { w with status := .offline, stoppedAt := some now }
      markStaleOffline offlineAfterSeconds now ids

def reapOnce (offlineAfterSeconds : Int) (rank : JobId → Nat) (rng : JobId → Draw) :
    Tx (Except PyError Nat) := do
  let now ← stmt .begin
  let gotLock ← stmt (.lock (.advisory REAPER_ADVISORY_LOCK_KEY) fun _ => true)
  match gotLock with
  | none => do
      stmt .rollback
      exit
      return .ok 0
  | some _ => do
      let ids ← select (scanJobs (JobRepository.expiredWhere now) rank)
      let expired ← JobRepository.lockRows (fun e => JobRepository.expiredWhere now e.job)
        expiredLimit ids
      match ← reapJobs rng now expired with
      | .error err => do
          exit
          return .error err
      | .ok () => do
          let stale ← select fun v => v.workerIds.filter fun id =>
            (v.worker id).any (staleWhere offlineAfterSeconds now)
          markStaleOffline offlineAfterSeconds now stale
          stmt .commit
          exit
          return .ok expired.length

end ExecutionService

end Chronos
