import Chronos.Txn.Pool

namespace Chronos

-- A task of _execute.
abbrev ExecutionId := Nat

-- Its finalize has not committed, or has; the task is done; _on_task_done has run.
inductive Execution
  | running
  | committed
  | done (committed : Bool)
  | reported (committed : Bool)
deriving DecidableEq

-- The await that _consume_loop stands at: claim_jobs, with its snapshot taken or not; the sleep
-- after a failed claim; _wait_for_work, with a task watching _slot_freed or without; the gather of
-- the task that did not come first. Or the loop has ended.
inductive Position
  | claiming (limit : Nat) (snapped : Bool)
  | backoff
  | waiting (watching : Bool)
  | gathering
  | left
deriving DecidableEq

-- `seen` is ghost state: what had committed when the last claim took its snapshot.
structure Consumer where
  position : Position
  draining : Bool
  inflight : List ExecutionId
  slotFreed : Bool
  execution : ExecutionId → Option Execution
  tasks : List ExecutionId
  seen : ExecutionId → Bool

inductive ConsumerEvent
  | snapshot
  | claimed (tasks : List ExecutionId)
  | raised
  | slept
  | commit (i : ExecutionId)
  | finish (i : ExecutionId)
  | callback (i : ExecutionId)
  | wake
  | freed
  | gathered
  | drain

namespace Consumer

variable (concurrency : Nat) (s : Consumer)

def set (i : ExecutionId) (x : Execution) : Consumer :=
  { s with execution := Function.update s.execution i (some x) }

-- _wait_for_work up to its await
def waitForWork : Consumer :=
  { s with slotFreed := false, position := .waiting (s.inflight ≠ []) }

-- _consume_loop from the test of the while to its next await
def resume : Consumer :=
  if s.draining then { s with position := .left }
  else
    let freeSlots := concurrency - s.inflight.length
    if freeSlots > 0 then { s with position := .claiming freeSlots false } else s.waitForWork

def addTasks (tasks : List ExecutionId) : Consumer :=
  { s with
    inflight := s.inflight ++ tasks
    execution := fun i => if i ∈ tasks then some .running else s.execution i
    tasks := s.tasks ++ tasks }

-- _on_task_done
def onTaskDone (i : ExecutionId) (committed : Bool) : Consumer :=
  { s.set i (.reported committed) with inflight := s.inflight.erase i, slotFreed := true }

def hasCommitted (i : ExecutionId) : Bool :=
  match s.execution i with
  | some .committed => true
  | some (.done committed) => committed
  | some (.reported committed) => committed
  | _ => false

def init : Consumer :=
  resume concurrency ⟨.backoff, false, [], false, fun _ => none, [], fun _ => false⟩

-- Between two awaits the loop runs undisturbed: a step is a resumption of the loop, or something
-- that goes on while it stands at an await.
def step : ConsumerEvent → Option Consumer
  | .snapshot =>
      match s.position with
      | .claiming limit false =>
          some { s with position := .claiming limit true, seen := s.hasCommitted }
      | _ => none
  | .claimed tasks =>
      match s.position with
      | .claiming limit true =>
          if tasks.length ≤ limit ∧ tasks.Nodup ∧ tasks.all fun i => s.execution i = none then
            if tasks = [] then some s.waitForWork else some ((s.addTasks tasks).resume concurrency)
          else none
      | _ => none
  | .raised =>
      match s.position with
      | .claiming _ _ => some { s with position := .backoff }
      | _ => none
  | .slept => if s.position = .backoff then some (s.resume concurrency) else none
  | .commit i => if s.execution i = some .running then some (s.set i .committed) else none
  | .finish i =>
      match s.execution i with
      | some .running => some (s.set i (.done false))
      | some .committed => some (s.set i (.done true))
      | _ => none
  | .callback i =>
      match s.execution i with
      | some (.done committed) => some (s.onTaskDone i committed)
      | _ => none
  | .wake =>
      match s.position with
      | .waiting true => some { s with position := .gathering }
      | .waiting false => some (s.resume concurrency)
      | _ => none
  | .freed =>
      if s.position = .waiting true ∧ s.slotFreed then some { s with position := .gathering }
      else none
  | .gathered => if s.position = .gathering then some (s.resume concurrency) else none
  | .drain => some { s with draining := true }

-- An execution that has committed and been reported, unseen by the last claim.
def missed (i : ExecutionId) : Bool := s.execution i = some (.reported true) ∧ s.seen i = false

end Consumer

end Chronos
