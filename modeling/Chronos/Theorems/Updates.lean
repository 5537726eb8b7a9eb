import Chronos.Refinement.Checks
import Chronos.Refinement.Queues
import Chronos.Services.Updates
import Chronos.Txn.Alone

namespace Chronos

open Txn (Runs Sees Settled TxId stmt)

variable {v : Snapshot} {now : Time} {t : TxId} {user : SessionUser}

section Queues

variable {id : QueueId} {q : Queue}

-- The queue that the flush of an update leaves.
def QueueService.updated (q : Queue) (fields : List QueueField) : Queue :=
  Patch.apply QueueField.assign q (fields.filter fun f => f.assign q ≠ some q)

end Queues

section Schedules

open ScheduleService (changes changes_keeps movedCursor sentExpr)

variable {cron : CronClock} {validCron : String → Bool} {jsonb : Json → Bool} {id : ScheduleId}
  {s : Schedule} {fields : List ScheduleField}

-- What the update answers.
def ScheduleService.updated (cron : CronClock) (jsonb : Json → Bool) (now : Time) (s : Schedule)
    (fields : List ScheduleField) : Except PyError Schedule :=
  match movedCursor cron s fields now with
  | .error err => .error err
  | .ok cursor =>
      if fields.any (ScheduleField.unstorable jsonb) then .error .dataError
      else if fields.any ScheduleField.refused then .error .integrity
      else .ok (changes s fields cursor s)

-- What a body must be for its update to go through: no null for a column that takes none, a
-- payload that can be stored, and for an expression that is read a next time it fires. Where the
-- cursor is recomputed although it need not be, it is where it was.
structure ScheduleUpdateBody.Applies (cron : CronClock) (jsonb : Json → Bool) (now : Time)
    (waking : Bool) (s : Schedule) (body : ScheduleUpdateBody validCron) : Prop where
  nulls : ∀ f ∈ body.fields, f.refused = false
  payload : ∀ f ∈ body.fields, f.unstorable jsonb = false
  cursor : body.fields.any ScheduleField.moves = true → ∃ expr at_,
    sentExpr s body.fields = some expr ∧ cron.next expr now = some at_ ∧
      (body.fields.any (ScheduleField.restarts waking s) = true ∨ at_ = s.nextRunAt)

end Schedules

section Example

end Example

end Chronos
