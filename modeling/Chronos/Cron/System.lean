import Chronos.Api.Routers
import Chronos.System

namespace Chronos

open Txn (TxId)

-- What runs against the database once there are schedules: the sweeps, the requests of the API,
-- and the calls of the workers.
inductive CronCall
  | sweep (ids : ScheduleId → JobId) (rank : ScheduleId → Nat)
  | request (user : SessionUser) (r : Request)
  | call (c : Call)

inductive CronValue
  | swept (r : Except PyError Nat)
  | response (r : Response)
  | value (v : Value)

abbrev CronState := Txn.Pool Key Row Time CronCall CronValue
abbrev CronEvent := Txn.Event Time CronCall

def CronCall.body (cron : CronClock) (tx : TxId) : CronCall → Tx CronValue
  | .sweep ids rank => do
      return .swept (← ExecutionService.materializeSchedulesOnce cron tx ids rank)
  | .request user r => do
      return .response (← r.handle cron tx user)
  | .call c => do
      return .value (← c.body tx)

-- The id of a schedule is handed out once, so it determines the user it is created for.
def mayFire (owner : ScheduleId → UserId) : CronCall → Bool
  | .request user (.createSchedule _ id _) => owner id = user.id
  | _ => true

def cronSystem (cron : CronClock) (owner : ScheduleId → UserId) :
    Txn.System Key Row Time CronCall CronValue :=
  ⟨fun _ c => mayFire owner c, CronCall.body cron⟩

-- The part of a job that its creation settles.
structure JobContent where
  ownerId : UserId
  queueId : QueueId
  queue : String
  taskName : String
  batchId : Option Nat
  workflowId : Option Nat
  payload : Json
  priority : Int
  idempotencyKey : Option String
  maxAttempts : Int
  timeoutSeconds : Int
  backoffStrategy : RetryStrategy
  backoffBaseSeconds : Int
  backoffFactor : ℚ
  backoffMaxSeconds : Int
deriving DecidableEq

def Job.content (job : Job) : JobContent where
  ownerId := job.ownerId
  queueId := job.queueId
  queue := job.queue
  taskName := job.taskName
  batchId := job.batchId
  workflowId := job.workflowId
  payload := job.payload
  priority := job.priority
  idempotencyKey := job.idempotencyKey
  maxAttempts := job.maxAttempts
  timeoutSeconds := job.timeoutSeconds
  backoffStrategy := job.backoffStrategy
  backoffBaseSeconds := job.backoffBaseSeconds
  backoffFactor := job.backoffFactor
  backoffMaxSeconds := job.backoffMaxSeconds

-- What the job of a firing is made of.
def Schedule.content (cron : CronClock) (s : Schedule) : JobContent where
  ownerId := s.ownerId
  queueId := s.queueId
  queue := s.queue
  taskName := s.taskName
  batchId := none
  workflowId := none
  payload := s.payload
  priority := s.priority
  idempotencyKey := some (ExecutionService.fireKey cron s.id s.nextRunAt)
  maxAttempts := s.maxAttempts
  timeoutSeconds := s.timeoutSeconds
  backoffStrategy := s.backoffStrategy
  backoffBaseSeconds := s.backoffBaseSeconds
  backoffFactor := s.backoffFactor
  backoffMaxSeconds := s.backoffMaxSeconds

theorem firedJob_content (cron : CronClock) (id : JobId) (s : Schedule) (now : Time) :
    (ExecutionService.firedJob cron id s now).content = s.content cron := rfl

def committedSchedule (m : Db) (id : ScheduleId) : Option Schedule :=
  ((m.cell (.schedule id)).committed).join

-- A row of schedules as some transaction sees it.
def ScheduleVersion (m : Db) (id : ScheduleId) (s : Schedule) : Prop :=
  (m.cell (.schedule id)).committed = some (some s) ∨
    ∃ t, (m.cell (.schedule id)).pending = some (t, some s)

end Chronos
