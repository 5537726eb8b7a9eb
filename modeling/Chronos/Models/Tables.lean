import Chronos.Models.Schedule
import Chronos.Models.Tenancy
import Mathlib.Tactic.NormNum
import Chronos.Txn.Program

namespace Chronos

structure Queue where
  id : QueueId
  projectId : ProjectId
  name : String
  paused : Bool
  shardKey : Int
  maxConcurrency : Option Int
  defaultPriority : Int
  defaultMaxAttempts : Int
  defaultBackoffStrategy : RetryStrategy
  defaultBackoffBaseSeconds : Int
  defaultBackoffFactor : ℚ
  defaultBackoffMaxSeconds : Int
  defaultTimeoutSeconds : Int
deriving DecidableEq

-- A queue row built with the column defaults only.
def Queue.fresh (id : QueueId) (projectId : ProjectId) (name : String) : Queue where
  id := id
  projectId := projectId
  name := name
  paused := false
  shardKey := 0
  maxConcurrency := none
  defaultPriority := 0
  defaultMaxAttempts := 3
  defaultBackoffStrategy := .exponential
  defaultBackoffBaseSeconds := 5
  defaultBackoffFactor := 2
  defaultBackoffMaxSeconds := 300
  defaultTimeoutSeconds := 300

-- The CHECK constraints of the queues table.
def Queue.checks (queue : Queue) : Bool :=
  queue.maxConcurrency.all (fun n => 1 ≤ n ∧ n ≤ 10000) ∧
  1 ≤ queue.defaultMaxAttempts ∧ queue.defaultMaxAttempts ≤ 20 ∧
  -100 ≤ queue.defaultPriority ∧ queue.defaultPriority ≤ 100 ∧
  0 ≤ queue.defaultBackoffBaseSeconds ∧ queue.defaultBackoffBaseSeconds ≤ 3600 ∧
  1 ≤ queue.defaultBackoffFactor ∧ queue.defaultBackoffFactor ≤ 10 ∧
  1 ≤ queue.defaultBackoffMaxSeconds ∧ queue.defaultBackoffMaxSeconds ≤ 86400 ∧
  1 ≤ queue.defaultTimeoutSeconds ∧ queue.defaultTimeoutSeconds ≤ 86400

theorem Queue.fresh_checks (id : QueueId) (projectId : ProjectId) (name : String) :
    (Queue.fresh id projectId name).checks = true := by
  simp [Queue.checks, Queue.fresh]
  norm_num

inductive WorkerStatus
  | online
  | draining
  | offline
deriving DecidableEq, Repr

structure Worker where
  id : WorkerId
  name : String
  status : WorkerStatus
  concurrency : Int
  lastHeartbeatAt : Time
  startedAt : Time
  stoppedAt : Option Time
deriving DecidableEq

-- The rows of the database. An advisory lock is a row that is only ever locked.
inductive Key
  | job (id : JobId)
  | queue (id : QueueId)
  | worker (id : WorkerId)
  | project (id : ProjectId)
  | org (id : OrgId)
  | user (id : UserId)
  | schedule (id : ScheduleId)
  | advisory (key : Nat)
deriving DecidableEq, Repr

namespace Key

def jobId : Key → Option JobId
  | .job id => some id
  | _ => none

def queueId : Key → Option QueueId
  | .queue id => some id
  | _ => none

def workerId : Key → Option WorkerId
  | .worker id => some id
  | _ => none

def projectId : Key → Option ProjectId
  | .project id => some id
  | _ => none

def userId : Key → Option UserId
  | .user id => some id
  | _ => none

def scheduleId : Key → Option ScheduleId
  | .schedule id => some id
  | _ => none

end Key

-- A schedule is the one row that requests delete; `none` is left of it.
@[reducible] def Row : Key → Type
  | .job _ => JobEntry
  | .queue _ => Queue
  | .worker _ => Worker
  | .project _ => Project
  | .org _ => Organization
  | .user _ => User
  | .schedule _ => Option Schedule
  | .advisory _ => Unit

abbrev Db := Txn.Store Key Row Time
abbrev Snapshot := Txn.View Key Row
abbrev Tx := Txn.Prog Key Row Time

namespace Snapshot

def job (v : Snapshot) (id : JobId) : Option JobEntry := v.row (.job id)

def queue (v : Snapshot) (id : QueueId) : Option Queue := v.row (.queue id)

def worker (v : Snapshot) (id : WorkerId) : Option Worker := v.row (.worker id)

def project (v : Snapshot) (id : ProjectId) : Option Project := v.row (.project id)

def org (v : Snapshot) (id : OrgId) : Option Organization := v.row (.org id)

def user (v : Snapshot) (id : UserId) : Option User := v.row (.user id)

def schedule (v : Snapshot) (id : ScheduleId) : Option Schedule :=
  (v.row (.schedule id)).join

def jobIds (v : Snapshot) : List JobId :=
  v.keys.filterMap Key.jobId

def queueIds (v : Snapshot) : List QueueId :=
  v.keys.filterMap Key.queueId

def workerIds (v : Snapshot) : List WorkerId :=
  v.keys.filterMap Key.workerId

def projectIds (v : Snapshot) : List ProjectId :=
  v.keys.filterMap Key.projectId

def userIds (v : Snapshot) : List UserId :=
  v.keys.filterMap Key.userId

def scheduleIds (v : Snapshot) : List ScheduleId :=
  v.keys.filterMap Key.scheduleId

-- The jobs a scan finds, with their rows.
def jobsWhere (v : Snapshot) (cond : JobEntry → Bool) : List (JobId × JobEntry) :=
  v.jobIds.filterMap fun id => (v.job id).bind fun e => if cond e then some (id, e) else none

end Snapshot

-- The statements, by table.
abbrev lockJob (id : JobId) (cond : JobEntry → Bool) : Tx (Option JobEntry) :=
  Txn.stmt (.lock (Key.job id) cond)

abbrev updateJob (id : JobId) (cond : JobEntry → Bool) (set : JobEntry → JobEntry) :
    Tx (Option JobEntry) :=
  Txn.stmt (.update (Key.job id) cond set)

abbrev recheckJob (id : JobId) (cond : JobEntry → Bool) (set : JobEntry → JobEntry) :
    Tx (Option JobEntry) :=
  Txn.stmt (.recheck (Key.job id) cond set)

abbrev writeJob (id : JobId) (set : JobEntry → JobEntry) : Tx (Option JobEntry) :=
  Txn.stmt (.write (Key.job id) set)

abbrev lockQueue (id : QueueId) (cond : Queue → Bool) : Tx (Option Queue) :=
  Txn.stmt (.lock (Key.queue id) cond)

abbrev updateQueue (id : QueueId) (cond : Queue → Bool) (set : Queue → Queue) :
    Tx (Option Queue) :=
  Txn.stmt (.update (Key.queue id) cond set)

abbrev updateWorker (id : WorkerId) (cond : Worker → Bool) (set : Worker → Worker) :
    Tx (Option Worker) :=
  Txn.stmt (.update (Key.worker id) cond set)

abbrev recheckWorker (id : WorkerId) (cond : Worker → Bool) (set : Worker → Worker) :
    Tx (Option Worker) :=
  Txn.stmt (.recheck (Key.worker id) cond set)

abbrev insertEntry (id : JobId) (row : JobEntry) (clash : ∀ k, Row k → Bool) : Tx Bool :=
  Txn.stmt (.insert (Key.job id) row clash)

abbrev insertQueue (id : QueueId) (row : Queue) (clash : ∀ k, Row k → Bool) : Tx Bool :=
  Txn.stmt (.insert (Key.queue id) row clash)

abbrev insertProject (id : ProjectId) (row : Project) (clash : ∀ k, Row k → Bool) : Tx Bool :=
  Txn.stmt (.insert (Key.project id) row clash)

abbrev insertSchedule (id : ScheduleId) (row : Schedule) : Tx Bool :=
  Txn.stmt (.insert (Key.schedule id) (some row) fun _ _ => false)

abbrev lockSchedule (id : ScheduleId) (cond : Schedule → Bool) : Tx (Option Schedule) := do
  let row ← Txn.stmt (.lock (Key.schedule id) (Option.any cond))
  return Option.join row

abbrev updateSchedule (id : ScheduleId) (set : Schedule → Option Schedule) :
    Tx (Option (Option Schedule)) :=
  Txn.stmt (.update (Key.schedule id) Option.isSome fun row => Option.bind row set)

abbrev writeSchedule (id : ScheduleId) (set : Schedule → Schedule) :
    Tx (Option (Option Schedule)) :=
  Txn.stmt (.write (Key.schedule id) (Option.map set))

abbrev updateUser (id : UserId) (cond : User → Bool) (set : User → User) : Tx (Option User) :=
  Txn.stmt (.update (Key.user id) cond set)

abbrev insertWorker (id : WorkerId) (row : Worker) : Tx Bool :=
  Txn.stmt (.insert (Key.worker id) row fun _ _ => false)

abbrev select {β : Type} (query : Snapshot → β) : Tx β := Txn.stmt (.select query)

-- The committed row of a job, and the version of the transaction that has it locked.
def committedJob (m : Db) (id : JobId) : Option JobEntry := (m.cell (.job id)).committed

def pendingJob (m : Db) (id : JobId) : Option (Txn.TxId × JobEntry) := (m.cell (.job id)).pending

def committedQueue (m : Db) (id : QueueId) : Option Queue := (m.cell (.queue id)).committed

-- Every job_dependencies row of the job names a job that has succeeded.
def DepsMet (m : Db) (e : JobEntry) : Prop :=
  ∀ d ∈ e.dependsOn, ∃ dep, committedJob m d = some dep ∧ dep.job.status = .succeeded

end Chronos
