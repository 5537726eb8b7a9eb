import Chronos.Models.Job

namespace Chronos

abbrev ScheduleId := Nat

-- A template and a cursor: nextRunAt is when it fires next.
structure Schedule where
  id : ScheduleId
  ownerId : UserId
  queueId : QueueId
  queue : String
  taskName : String
  payload : Json
  cronExpr : String
  paused : Bool
  priority : Int
  maxAttempts : Int
  timeoutSeconds : Int
  backoffStrategy : RetryStrategy
  backoffBaseSeconds : Int
  backoffFactor : ℚ
  backoffMaxSeconds : Int
  nextRunAt : Time
  lastRunAt : Option Time
  createdAt : Time
deriving DecidableEq

-- The CHECK constraints of the schedules table.
def Schedule.checks (s : Schedule) : Bool :=
  1 ≤ s.maxAttempts ∧ s.maxAttempts ≤ 20 ∧
  -100 ≤ s.priority ∧ s.priority ≤ 100 ∧
  0 ≤ s.backoffBaseSeconds ∧ s.backoffBaseSeconds ≤ 3600 ∧
  1 ≤ s.backoffFactor ∧ s.backoffFactor ≤ 10 ∧
  1 ≤ s.backoffMaxSeconds ∧ s.backoffMaxSeconds ≤ 86400 ∧
  1 ≤ s.timeoutSeconds ∧ s.timeoutSeconds ≤ 86400

end Chronos
