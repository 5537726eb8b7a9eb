import Chronos.Services.Execution
import Chronos.Services.Jobs

namespace Chronos

open Txn (stmt TxId)

-- croniter and datetime: the first fire time strictly after an instant, if get_next returns,
-- and the text of an instant.
structure CronClock where
  next : String → Time → Option Time
  isoformat : Time → String

-- The next full minute, as for the expression * * * * *.
def exampleCron : CronClock where
  next _ now := some (60 * (⌊now / 60⌋ + 1))
  isoformat t := toString t.num

structure ScheduleCreate where
  taskName : String
  payload : Document
  cronExpr : String
  queue : String
  projectId : Option ProjectId
  priority : Int
  maxAttempts : Int
  timeoutSeconds : Int
  backoffStrategy : RetryStrategy
  backoffBaseSeconds : Int
  backoffFactor : ℚ
  backoffMaxSeconds : Int

-- The fields of ScheduleUpdate. `none` is an explicit null.
inductive ScheduleField
  | cronExpr (value : Option String)
  | paused (value : Option Bool)
  | payload (value : Option Json)
  | priority (value : Option Int)
  | maxAttempts (value : Option Int)
  | timeoutSeconds (value : Option Int)
deriving DecidableEq

-- The field constraints of the two schemas. `validCron` is croniter's word on an expression.
def ScheduleCreate.accepted (validCron : String → Bool) (data : ScheduleCreate) : Bool :=
  1 ≤ data.taskName.length ∧ data.taskName.length ≤ 255 ∧
  data.payload.sent.utf8ByteSize ≤ MAX_PAYLOAD_BYTES ∧
  1 ≤ data.cronExpr.length ∧ data.cronExpr.length ≤ 100 ∧ validCron data.cronExpr ∧
  1 ≤ data.queue.length ∧ data.queue.length ≤ 100 ∧
  -100 ≤ data.priority ∧ data.priority ≤ 100 ∧
  1 ≤ data.maxAttempts ∧ data.maxAttempts ≤ 20 ∧
  1 ≤ data.timeoutSeconds ∧ data.timeoutSeconds ≤ 86400 ∧
  0 ≤ data.backoffBaseSeconds ∧ data.backoffBaseSeconds ≤ 3600 ∧
  1 ≤ data.backoffFactor ∧ data.backoffFactor ≤ 10 ∧
  1 ≤ data.backoffMaxSeconds ∧ data.backoffMaxSeconds ≤ 86400

-- The values of the row that the flush sends can be stored.
def ScheduleCreate.storable (data : ScheduleCreate) : Bool :=
  storableText data.taskName ∧ data.payload.refused = false ∧ storableText data.cronExpr

def ScheduleField.accepted (validCron : String → Bool) : ScheduleField → Bool
  | .cronExpr value => value.all fun x => 1 ≤ x.length ∧ x.length ≤ 100 ∧ validCron x
  | .paused _ => true
  | .payload _ => true
  | .priority value => value.all fun n => -100 ≤ n ∧ n ≤ 100
  | .maxAttempts value => value.all fun n => 1 ≤ n ∧ n ≤ 20
  | .timeoutSeconds value => value.all fun n => 1 ≤ n ∧ n ≤ 86400

-- A null fails the NOT NULL constraint of its column. In a JSONB column it is the JSON null.
def ScheduleField.assign (s : Schedule) : ScheduleField → Option Schedule
  | .cronExpr value => value.map fun x => { s with cronExpr := x }
  | .paused value => value.map fun x => { s with paused := x }
  | .payload value => some { s with payload := value.getD "null" }
  | .priority value => value.map fun x => { s with priority := x }
  | .maxAttempts value => value.map fun x => { s with maxAttempts := x }
  | .timeoutSeconds value => value.map fun x => { s with timeoutSeconds := x }

-- cron_expr is sent, or paused is sent as something falsy.
def ScheduleField.moves : ScheduleField → Bool
  | .cronExpr _ => true
  | .paused value => value ≠ some true
  | _ => false

def ScheduleField.expr : ScheduleField → Option (Option String)
  | .cronExpr value => some value
  | _ => none

namespace ScheduleRepository

def getForOwner (scheduleId : ScheduleId) (ownerId : UserId) (v : Snapshot) : Option Schedule :=
  (v.schedule scheduleId).bind fun s => if s.ownerId = ownerId then some s else none

-- ORDER BY created_at DESC
def listForOwner (ownerId : UserId) (limit offset : Nat) (v : Snapshot) : List Schedule × Nat :=
  let rows := (v.scheduleIds.filterMap fun id => v.schedule id).filter fun s => s.ownerId = ownerId
  (((rows.insertionSort fun a b => b.createdAt ≤ a.createdAt).drop offset).take limit, rows.length)

def dueWhere (now : Time) (s : Schedule) : Bool := s.paused = false ∧ s.nextRunAt ≤ now

-- ORDER BY next_run_at; equal cursors come in any order, here by a rank the caller picks.
def dueScan (now : Time) (rank : ScheduleId → Nat) (v : Snapshot) : List ScheduleId :=
  let rows := v.scheduleIds.filterMap fun id =>
    (v.schedule id).bind fun s => if dueWhere now s then some (id, s) else none
  (rows.insertionSort fun a b => a.2.nextRunAt < b.2.nextRunAt ∨
    a.2.nextRunAt = b.2.nextRunAt ∧ rank a.1 ≤ rank b.1).map Prod.fst

def dueLimit : Nat := 100

-- FOR UPDATE SKIP LOCKED with a LIMIT.
def lockDue (now : Time) : Nat → List ScheduleId → Tx (List (ScheduleId × Schedule))
  | 0, _ => pure []
  | _, [] => pure []
  | n + 1, id :: ids => do
      match ← lockSchedule id (dueWhere now) with
      | some s => return (id, s) :: (← lockDue now n ids)
      | none => lockDue now (n + 1) ids

end ScheduleRepository

namespace ScheduleService

-- _resolve_queue: without the savepoint of JobService.
def resolveQueue (id : QueueId) (project : Project) (name : String) : Tx (Except PyError Queue) :=
  if storableText name then do
    match ← select (QueueRepository.getByName project.id name) with
    | some queue => return .ok queue
    | none => do
        let queue := Queue.fresh id project.id name
        if ← insertQueue id queue (uqQueuesProjectName queue) then return .ok queue
        else return .error .integrity
  else return .error .dataError

def build (id : ScheduleId) (ownerId : UserId) (queue : Queue) (data : ScheduleCreate)
    (nextRunAt now : Time) : Schedule where
  id := id
  ownerId := ownerId
  queueId := queue.id
  queue := queue.name
  taskName := data.taskName
  payload := data.payload.held
  cronExpr := data.cronExpr
  paused := false
  priority := data.priority
  maxAttempts := data.maxAttempts
  timeoutSeconds := data.timeoutSeconds
  backoffStrategy := data.backoffStrategy
  backoffBaseSeconds := data.backoffBaseSeconds
  backoffFactor := data.backoffFactor
  backoffMaxSeconds := data.backoffMaxSeconds
  nextRunAt := nextRunAt
  lastRunAt := none
  createdAt := now

def stage (cron : CronClock) (user : SessionUser) (data : ScheduleCreate) (id : ScheduleId)
    (queueId : QueueId) (now : Time) : Tx (Except PyError Schedule) := do
  match ← JobService.resolveProject user data.projectId with
  | .error err => return .error err
  | .ok project =>
      match ← resolveQueue queueId project data.queue with
      | .error err => return .error err
      | .ok queue =>
          match cron.next data.cronExpr now with
          | none => return .error .croniterBadDate
          | some nextRunAt =>
              let s := build id user.id queue data nextRunAt now
              if data.storable then
                if s.checks then
                  if ← insertSchedule id s then return .ok s else return .error .integrity
                else return .error .integrity
              else return .error .dataError

def create (cron : CronClock) (user : SessionUser) (data : ScheduleCreate) (id : ScheduleId)
    (queueId : QueueId) : Tx (Except PyError Schedule) := do
  let now ← stmt .begin
  match ← stage cron user data id queueId now with
  | .ok s => do
      stmt .commit
      stmt .rollback
      return .ok s
  | .error err => do
      stmt .rollback
      return .error err

def get (user : SessionUser) (scheduleId : ScheduleId) : Tx (Except PyError Schedule) := do
  match ← select (ScheduleRepository.getForOwner scheduleId user.id) with
  | some s => return .ok s
  | none => return .error (.notFound "schedule not found")

-- The cron_expr of the object once the body is applied; `none` is a null.
def sentExpr (s : Schedule) (fields : List ScheduleField) : Option String :=
  ((fields.filterMap ScheduleField.expr).getLast?).getD (some s.cronExpr)

-- next_run_at after the body is applied to the object that was loaded: `none` if it is left alone.
def movedCursor (cron : CronClock) (s : Schedule) (fields : List ScheduleField) (now : Time) :
    Except PyError (Option Time) :=
  if fields.any ScheduleField.moves then
    match sentExpr s fields with
    | none => .error .attributeError
    | some expr =>
        match cron.next expr now with
        | none => .error .croniterBadDate
        | some t => .ok (some t)
  else .ok none

-- The flush sets the attributes whose value differs from the one loaded.
def changes (loaded : Schedule) (fields : List ScheduleField) (cursor : Option Time)
    (s : Schedule) : Schedule :=
  let s := (fields.filter fun f => f.assign loaded ≠ some loaded).foldl
    (fun s f => (f.assign s).getD s) s
  match cursor with
  | some t => if t = loaded.nextRunAt then s else { s with nextRunAt := t }
  | none => s

-- An UPDATE that matches no row, because the schedule was deleted, raises StaleDataError.
def update (cron : CronClock) (user : SessionUser) (scheduleId : ScheduleId)
    (fields : List ScheduleField) : Tx (Except PyError Schedule) := do
  let now ← stmt .begin
  match ← get user scheduleId with
  | .error err => do
      stmt .rollback
      return .error err
  | .ok loaded =>
      match movedCursor cron loaded fields now with
      | .error err => do
          stmt .rollback
          return .error err
      | .ok cursor =>
          if fields.any fun f => f.assign loaded = none then do
            stmt .rollback
            return .error .integrity
          else if changes loaded fields cursor loaded = loaded then do
            stmt .commit
            stmt .rollback
            return .ok loaded
          else do
            match ← updateSchedule scheduleId fun s => some (changes loaded fields cursor s) with
            | none => do
                stmt .rollback
                return .error .staleData
            | some _ => do
                stmt .commit
                stmt .rollback
                return .ok (changes loaded fields cursor loaded)

def delete (user : SessionUser) (scheduleId : ScheduleId) : Tx (Except PyError Unit) := do
  let _ ← stmt .begin
  match ← get user scheduleId with
  | .error err => do
      stmt .rollback
      return .error err
  | .ok _ => do
      let _ ← updateSchedule scheduleId fun _ => none
      stmt .commit
      stmt .rollback
      return .ok ()

def listSchedules (user : SessionUser) (limit offset : Nat) : Tx (List Schedule × Nat) := do
  let _ ← stmt .begin
  let rows ← select (ScheduleRepository.listForOwner user.id limit offset)
  stmt .rollback
  return rows

end ScheduleService

namespace ExecutionService

def SCHEDULER_ADVISORY_LOCK_KEY : Nat := 0x5C4ED0

def fireKey (cron : CronClock) (id : ScheduleId) (at_ : Time) : String :=
  "schedule:" ++ toString id ++ ":" ++ cron.isoformat at_

-- The job of a firing, with the column defaults the flush adds.
def firedJob (cron : CronClock) (id : JobId) (s : Schedule) (now : Time) : Job where
  id := id
  ownerId := s.ownerId
  queueId := s.queueId
  queue := s.queue
  taskName := s.taskName
  batchId := none
  workflowId := none
  payload := s.payload
  status := .pending
  priority := s.priority
  runAt := s.nextRunAt
  idempotencyKey := some (fireKey cron s.id s.nextRunAt)
  maxAttempts := s.maxAttempts
  backoffStrategy := s.backoffStrategy
  attemptCount := 0
  timeoutSeconds := s.timeoutSeconds
  backoffBaseSeconds := s.backoffBaseSeconds
  backoffFactor := s.backoffFactor
  backoffMaxSeconds := s.backoffMaxSeconds
  lockedBy := none
  leaseExpiresAt := none
  lastError := none
  aiSummary := none
  result := none
  createdAt := now
  startedAt := none
  finishedAt := none

def advance (nextRunAt : Time) (s : Schedule) : Schedule :=
  { s with lastRunAt := some s.nextRunAt, nextRunAt := nextRunAt }

-- One flush: the job of the firing, if one is staged, and the cursor.
def flushFiring (tx : TxId) (id : ScheduleId) (job : Option Job) (nextRunAt : Time) : Tx Bool := do
  let inserted ←
    match job with
    | none => pure true
    | some job =>
        if job.checks then
          insertEntry job.id { job := job, attempts := [], dependsOn := [], log := [.created tx] }
            (uqJobsOwnerIdempotency job)
        else pure false
  if inserted then do
    let _ ← writeSchedule id (advance nextRunAt)
    return true
  else return false

-- The loop over the due schedules. What one iteration stages is flushed by the SELECT of the
-- next one, the last by the commit.
def fireSchedules (cron : CronClock) (tx : TxId) (ids : ScheduleId → JobId) (now : Time) :
    List (ScheduleId × Schedule) → Tx (Except PyError Nat)
  | [] => pure (.ok 0)
  | (id, s) :: due => do
      let existing ← select
        (JobRepository.getByIdempotencyKey s.ownerId (fireKey cron s.id s.nextRunAt))
      let job := if existing.isSome then none else some (firedJob cron (ids id) s now)
      match cron.next s.cronExpr (max s.nextRunAt now) with
      | none => return .error .croniterBadDate
      | some nextRunAt =>
          if ← flushFiring tx id job nextRunAt then
            match ← fireSchedules cron tx ids now due with
            | .error err => return .error err
            | .ok created => return .ok (created + if job.isSome then 1 else 0)
          else return .error .integrity

def materializeSchedulesOnce (cron : CronClock) (tx : TxId) (ids : ScheduleId → JobId)
    (rank : ScheduleId → Nat) : Tx (Except PyError Nat) := do
  let now ← stmt .begin
  match ← stmt (.lock (.advisory SCHEDULER_ADVISORY_LOCK_KEY) fun _ => true) with
  | none => do
      stmt .rollback
      return .ok 0
  | some _ => do
      let candidates ← select (ScheduleRepository.dueScan now rank)
      let due ← ScheduleRepository.lockDue now ScheduleRepository.dueLimit candidates
      if due = [] then do
        stmt .rollback
        return .ok 0
      else
        match ← fireSchedules cron tx ids now due with
        | .error err => do
            exit
            return .error err
        | .ok created => do
            stmt .commit
            exit
            return .ok created

end ExecutionService

end Chronos
