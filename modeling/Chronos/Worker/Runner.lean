import Chronos.System

namespace Chronos

open Txn (TxId)

-- Where the task of a claimed job is in _execute. It exists from when claim_jobs returns the job:
-- it has not run yet, or awaits the handler, complete_success or complete_failure, or the shielded
-- release_job, which a cancellation by _shutdown may be the reason of.
inductive Phase
  | created
  | handling
  | finishing (t : TxId)
  | releasing (t : TxId) (cancelled : Bool)
  | ended
deriving DecidableEq

inductive Mode
  | consuming
  | draining
  | stopped
deriving DecidableEq

-- One WorkerRunner, among all that is going on in the database.
structure Runner where
  pool : State
  phase : TxId → JobId → Phase
  mode : Mode

-- A task is named by the claim that returned its job and the job. `t` is the transaction of the
-- call that an event makes.
inductive RunnerEvent
  | pool (e : Event)
  | begin (claim : TxId) (job : Job)
  | finish (claim : TxId) (job : Job) (f : Finalizer) (t : TxId)
  | escape (claim : TxId) (job : Job)
  | close (claim : TxId) (job : Job)
  | drain
  | cancel (claim : TxId) (job : Job) (t : TxId)
  | stop

def Runner.init (m : Db) : Runner := ⟨Txn.Pool.init m, fun _ _ => .created, .consuming⟩

namespace Runner

variable (workerId : WorkerId) (s : Runner)

def setPhase (claim : TxId) (id : JobId) (phase : Phase) : Runner :=
  { s with phase := fun c i => if c = claim ∧ i = id then phase else s.phase c i }

-- The calls that only the runner's own loop and tasks make.
def ownCall (mode : Mode) : Event → Bool
  | .start _ (.claimJobs args) => args.workerId = workerId ∧ mode ≠ .consuming
  | .start _ (.finalize _ _ worker _) => worker = workerId
  | _ => false

def hasTask (claim : TxId) (job : Job) : Bool :=
  mayCall s.pool (.finalize claim job workerId .releaseJob)

-- A call that has returned or raised.
def callOver (t : TxId) : Bool :=
  match s.pool.thread t with
  | some ⟨_, some (.op _ _)⟩ => false
  | some _ => true
  | none => false

def claiming : Bool :=
  s.pool.mem.opened.any fun t =>
    match s.pool.thread t with
    | some ⟨.claimJobs args, some (.op _ _)⟩ => args.workerId = workerId
    | _ => false

def inflight : Bool :=
  s.pool.mem.opened.any fun t =>
    match s.pool.thread t with
    | some ⟨.claimJobs args, some (.pure (.jobs jobs))⟩ =>
        args.workerId = workerId ∧ jobs.any fun job => s.phase t job.id ≠ .ended
    | _ => false

def call (t : TxId) (claim : TxId) (job : Job) (f : Finalizer) (phase : Phase) : Option Runner :=
  (system.step s.pool (.start t (.finalize claim job workerId f))).map fun pool =>
    ({ s with pool := pool } : Runner).setPhase claim job.id phase

-- _execute after the handler: release_job if it ended in a CancelledError of its own.
def finish (claim : TxId) (job : Job) (f : Finalizer) (t : TxId) : Option Runner :=
  match f with
  | .releaseJob => s.call workerId t claim job f (.releasing t false)
  | _ => s.call workerId t claim job f (.finishing t)

-- A CancelledError in a task: it never runs; it releases its job; its open session is rolled back;
-- or it leaves the release that it has shielded to itself.
def cancel (claim : TxId) (job : Job) (t : TxId) : Option Runner :=
  match s.phase claim job.id with
  | .created => some (s.setPhase claim job.id .ended)
  | .handling => s.call workerId t claim job .releaseJob (.releasing t true)
  | .finishing u => (system.step s.pool (.abort u)).map fun pool =>
      ({ s with pool := pool } : Runner).setPhase claim job.id .ended
  | .releasing _ false => some (s.setPhase claim job.id .ended)
  | _ => none

def step : RunnerEvent → Option Runner
  | .pool e =>
      if ownCall workerId s.mode e then none
      else (system.step s.pool e).map fun pool => { s with pool := pool }
  | .begin claim job =>
      if s.hasTask workerId claim job ∧ s.phase claim job.id = .created then
        some (s.setPhase claim job.id .handling)
      else none
  | .finish claim job f t =>
      if s.hasTask workerId claim job ∧ s.phase claim job.id = .handling then
        s.finish workerId claim job f t
      else none
  -- The handler raised a BaseException that no except clause of _execute names, such as a
  -- GeneratorExit or a BaseExceptionGroup: the task ends with it and calls no finalizer.
  | .escape claim job =>
      if s.hasTask workerId claim job ∧ s.phase claim job.id = .handling then
        some (s.setPhase claim job.id .ended)
      else none
  | .close claim job =>
      match s.phase claim job.id with
      | .finishing t => if s.callOver t then some (s.setPhase claim job.id .ended) else none
      | .releasing t _ => if s.callOver t then some (s.setPhase claim job.id .ended) else none
      | _ => none
  -- The consume loop is left between two calls of claim_jobs.
  | .drain =>
      if s.mode = .consuming ∧ !s.claiming workerId then some { s with mode := .draining } else none
  | .cancel claim job t =>
      if s.mode = .draining ∧ s.hasTask workerId claim job then s.cancel workerId claim job t
      else none
  -- gather waits for the tasks.
  | .stop =>
      if s.mode = .draining ∧ !s.inflight workerId then some { s with mode := .stopped } else none

-- The job is being claimed or executed under the claim.
def live (claim : TxId) (id : JobId) : Bool :=
  match s.pool.thread claim with
  | some ⟨.claimJobs args, some (.op _ _)⟩ => args.workerId = workerId
  | some ⟨.claimJobs args, some (.pure (.jobs jobs))⟩ =>
      args.workerId = workerId ∧ jobs.any (fun job => job.id = id) ∧ s.phase claim id ≠ .ended
  | _ => false

end Runner

-- The claim is the one that the row of the job is RUNNING under.
def inForce (s : State) (claim : TxId) (id : JobId) : Bool :=
  (committedJob s.mem id).any fun e => e.currentClaim = some claim

-- No call is cut off, and no task cancelled or left by its handler's exception, that would have
-- ended a claim in force: a finalizer before its commit, claim_jobs after it, a task that is not in
-- its handler, a handler that raises what _execute does not catch.
def keepsLeases (workerId : WorkerId) (s : Runner) : RunnerEvent → Bool
  | .pool (.abort t) =>
      match s.pool.thread t with
      | some ⟨.claimJobs args, _⟩ => args.workerId ≠ workerId ||
          (s.pool.mem.keys.filterMap Key.jobId).all fun id => !inForce s.pool t id
      | some ⟨.finalize claim job worker _, _⟩ => worker ≠ workerId || !inForce s.pool claim job.id
      | _ => true
  | .cancel claim job _ => s.phase claim job.id = .handling || !inForce s.pool claim job.id
  | .escape claim job => !inForce s.pool claim job.id
  | _ => true

end Chronos
