import Chronos.Data.Patch
import Chronos.Services.Queues
import Chronos.Services.Schedules

namespace Chronos

open Txn (stmt)

inductive QueueColumn
  | paused
  | maxConcurrency
  | defaultPriority
  | defaultMaxAttempts
  | defaultBackoffStrategy
  | defaultBackoffBaseSeconds
  | defaultBackoffFactor
  | defaultBackoffMaxSeconds
  | defaultTimeoutSeconds
  | shardKey
deriving DecidableEq

def QueueField.column : QueueField → QueueColumn
  | .paused _ => .paused
  | .maxConcurrency _ => .maxConcurrency
  | .defaultPriority _ => .defaultPriority
  | .defaultMaxAttempts _ => .defaultMaxAttempts
  | .defaultBackoffStrategy _ => .defaultBackoffStrategy
  | .defaultBackoffBaseSeconds _ => .defaultBackoffBaseSeconds
  | .defaultBackoffFactor _ => .defaultBackoffFactor
  | .defaultBackoffMaxSeconds _ => .defaultBackoffMaxSeconds
  | .defaultTimeoutSeconds _ => .defaultTimeoutSeconds
  | .shardKey _ => .shardKey

-- A null for a column that is NOT NULL.
def QueueField.refused : QueueField → Bool
  | .paused value => value.isNone
  | .maxConcurrency _ => false
  | .defaultPriority value => value.isNone
  | .defaultMaxAttempts value => value.isNone
  | .defaultBackoffStrategy value => value.isNone
  | .defaultBackoffBaseSeconds value => value.isNone
  | .defaultBackoffFactor value => value.isNone
  | .defaultBackoffMaxSeconds value => value.isNone
  | .defaultTimeoutSeconds value => value.isNone
  | .shardKey value => value.isNone

def Queue.field (queue : Queue) : QueueColumn → QueueField
  | .paused => .paused (some queue.paused)
  | .maxConcurrency => .maxConcurrency queue.maxConcurrency
  | .defaultPriority => .defaultPriority (some queue.defaultPriority)
  | .defaultMaxAttempts => .defaultMaxAttempts (some queue.defaultMaxAttempts)
  | .defaultBackoffStrategy => .defaultBackoffStrategy (some queue.defaultBackoffStrategy)
  | .defaultBackoffBaseSeconds => .defaultBackoffBaseSeconds (some queue.defaultBackoffBaseSeconds)
  | .defaultBackoffFactor => .defaultBackoffFactor (some queue.defaultBackoffFactor)
  | .defaultBackoffMaxSeconds => .defaultBackoffMaxSeconds (some queue.defaultBackoffMaxSeconds)
  | .defaultTimeoutSeconds => .defaultTimeoutSeconds (some queue.defaultTimeoutSeconds)
  | .shardKey => .shardKey (some queue.shardKey)

inductive ScheduleColumn
  | cronExpr
  | paused
  | payload
  | priority
  | maxAttempts
  | timeoutSeconds
deriving DecidableEq

namespace ScheduleField

def column : ScheduleField → ScheduleColumn
  | .cronExpr _ => .cronExpr
  | .paused _ => .paused
  | .payload _ => .payload
  | .priority _ => .priority
  | .maxAttempts _ => .maxAttempts
  | .timeoutSeconds _ => .timeoutSeconds

def refused : ScheduleField → Bool
  | .cronExpr value => value.isNone
  | .paused value => value.isNone
  | .payload _ => false
  | .priority value => value.isNone
  | .maxAttempts value => value.isNone
  | .timeoutSeconds value => value.isNone

-- A null payload is stored as the JSON null.
def stored : ScheduleField → ScheduleField
  | .payload none => .payload (some "null")
  | f => f

-- A payload that a jsonb column does not take, such as one with a NUL in a string.
def unstorable (jsonb : Json → Bool) : ScheduleField → Bool
  | .payload (some value) => !jsonb value
  | _ => false

-- cron_expr is sent, or paused is sent as false; with `waking`, only if the schedule was paused.
def restarts (waking : Bool) (s : Schedule) : ScheduleField → Bool
  | .cronExpr _ => true
  | .paused (some false) => !waking || s.paused
  | _ => false

end ScheduleField

def Schedule.field (s : Schedule) : ScheduleColumn → ScheduleField
  | .cronExpr => .cronExpr (some s.cronExpr)
  | .paused => .paused (some s.paused)
  | .payload => .payload (some s.payload)
  | .priority => .priority (some s.priority)
  | .maxAttempts => .maxAttempts (some s.maxAttempts)
  | .timeoutSeconds => .timeoutSeconds (some s.timeoutSeconds)

-- The schedule without its cursor and the columns that a ScheduleUpdate names.
def Schedule.rest (s : Schedule) : Schedule :=
  { s with cronExpr := "", paused := false, payload := "null", priority := 0, maxAttempts := 1
           timeoutSeconds := 1, nextRunAt := 0 }

-- What a body cannot change of a schedule, its cursor apart.
structure SameSchedule (s s' : Schedule) : Prop where
  id : s'.id = s.id
  ownerId : s'.ownerId = s.ownerId
  nextRunAt : s'.nextRunAt = s.nextRunAt

theorem SameSchedule.trans {s₁ s₂ s₃ : Schedule} (h : SameSchedule s₁ s₂)
    (h' : SameSchedule s₂ s₃) : SameSchedule s₁ s₃ :=
  ⟨h'.id.trans h.id, h'.ownerId.trans h.ownerId, h'.nextRunAt.trans h.nextRunAt⟩

theorem sameSchedule_assign {f : ScheduleField} {s s' : Schedule} (h : f.assign s = some s') :
    SameSchedule s s' := by
  cases f with
  | payload value =>
      obtain rfl := Option.some.inj h
      exact ⟨rfl, rfl, rfl⟩
  | _ value =>
      obtain ⟨x, rfl, rfl⟩ := Option.map_eq_some_iff.mp h
      exact ⟨rfl, rfl, rfl⟩

theorem sameSchedule_apply (fields : List ScheduleField) (s : Schedule) :
    SameSchedule s (Patch.apply ScheduleField.assign s fields) :=
  Patch.apply_keeps (fun _ => True) (SameSchedule s)
    (fun _ _ _ _ hsame h => hsame.trans (sameSchedule_assign h)) fields (fun _ _ => trivial) s
    ⟨rfl, rfl, rfl⟩

-- What the fields and a moved cursor keep, the flush of an update keeps.
theorem ScheduleService.changes_keeps (P : Schedule → Prop) {loaded s : Schedule}
    {fields : List ScheduleField} {cursor : Option Time}
    (hfields : P (Patch.apply ScheduleField.assign s
      (fields.filter fun f => f.assign loaded ≠ some loaded)))
    (hcursor : ∀ s at_, P s → P { s with nextRunAt := at_ }) : P (changes loaded fields cursor s) := by
  cases cursor with
  | none => exact hfields
  | some at_ =>
      unfold changes
      dsimp only
      split
      · exact hfields
      · exact hcursor _ at_ hfields

structure ScheduleUpdateBody (validCron : String → Bool) where
  fields : List ScheduleField
  distinct : (fields.map ScheduleField.column).Nodup
  accepted : ∀ f ∈ fields, f.accepted validCron = true

end Chronos
