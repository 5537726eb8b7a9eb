import Chronos.System
import Chronos.Worker.Tasks

namespace Chronos

open Txn (TxId)

-- The consume loop of a worker with the claim_jobs call that it awaits, among all that is going
-- on in the database.
structure Intake where
  pool : State
  loop : Consumer
  call : Option TxId

-- `returned` names the tasks made for the jobs that the call has returned.
inductive IntakeEvent
  | pool (e : Event)
  | call (t : TxId)
  | returned (tasks : List ExecutionId)
  | loop (e : ConsumerEvent)

namespace Intake

variable (concurrency : Nat) (settings : JobRepository.ClaimArgs) (s : Intake)

def init (m : Db) : Intake := ⟨Txn.Pool.init m, Consumer.init concurrency, none⟩

-- What the awaited call has returned.
def answer : Option (List Job) :=
  match s.call.bind s.pool.thread with
  | some ⟨_, some (.pure (.jobs jobs))⟩ => some jobs
  | _ => none

-- The call is made with the free slots as its limit. While it is awaited the loop stands still,
-- tasks end and are reported, and it may raise.
def step : IntakeEvent → Option Intake
  | .pool e => (system.step s.pool e).map fun pool => { s with pool := pool }
  | .call t =>
      match s.loop.position, s.call with
      | .claiming limit _, none =>
          (system.step s.pool (.start t (.claimJobs { settings with limit := limit }))).map
            fun pool => { s with pool := pool, call := some t }
      | _, _ => none
  | .returned tasks =>
      match s.answer with
      | some jobs =>
          if tasks.length = jobs.length ∧ tasks.Nodup ∧
              tasks.all fun i => s.loop.execution i = none then
            some { s with loop := s.loop.receive concurrency tasks, call := none }
          else none
      | none => none
  | .loop (.claimed _) => none
  | .loop .raised =>
      (s.loop.step concurrency .raised).map fun loop => { s with loop := loop, call := none }
  | .loop e => (s.loop.step concurrency e).map fun loop => { s with loop := loop }

end Intake

end Chronos
