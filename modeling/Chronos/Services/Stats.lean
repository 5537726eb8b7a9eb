import Chronos.Data.Tally
import Chronos.Repositories.Stats

namespace Chronos

-- The minute an instant falls into, in UTC: date_trunc of the database, and
-- replace(second=0, microsecond=0) of a datetime.
def minuteOf (t : Time) : Time := 60 * ⌊t / 60⌋

def Snapshot.attempts (v : Snapshot) : List JobAttempt :=
  (v.jobsWhere fun _ => true).flatMap fun p => p.2.attempts

namespace JobRepository

def countsByStatus (v : Snapshot) (status : JobStatus) : Nat :=
  (v.jobsWhere fun e => e.job.status = status).length

end JobRepository

namespace WorkerRepository

def countOnline (v : Snapshot) : Nat :=
  v.workerIds.countP fun id => (v.worker id).any fun w => w.status = .online

end WorkerRepository

namespace AttemptRepository

-- The statuses of the IN clause.
def counted (status : AttemptStatus) : Bool :=
  status = .succeeded ∨ status = .failed ∨ status = .lost

-- The rows of throughput_by_minute: when an attempt has finished, and how.
def finishedSince (since : Time) (a : JobAttempt) : Option (Time × AttemptStatus) :=
  a.finishedAt.bind fun finishedAt =>
    if since ≤ finishedAt ∧ counted a.status then some (finishedAt, a.status) else none

-- GROUP BY minute, status. The groups come in any order, here by a rank the caller picks.
def throughputByMinute (since : Time) (rank : Time × AttemptStatus → Nat) (v : Snapshot) :
    List ((Time × AttemptStatus) × Nat) :=
  let rows := v.attempts.filterMap (finishedSince since)
  let groups := Tally.groupCount (fun r : Time × AttemptStatus => (minuteOf r.1, r.2)) rows
  groups.insertionSort fun a b => rank a.1 ≤ rank b.1

end AttemptRepository

structure Bucket where
  succeeded : Nat
  failed : Nat
deriving DecidableEq, Repr

structure ThroughputPoint where
  minute : Time
  succeeded : Nat
  failed : Nat
deriving DecidableEq, Repr

structure StatsOverview where
  countsByStatus : JobStatus → Nat
  readyNow : Nat
  scheduledLater : Nat
  workersOnline : Nat
  dlqSize : Nat
  throughputLastHour : List ThroughputPoint
  generatedAt : Time

namespace StatsService

-- The dict of the 61 minutes, all counts zero.
def emptyBuckets (since : Time) : List (Time × Bucket) :=
  (List.range 61).foldl (fun buckets (i : Nat) =>
    Tally.store (minuteOf (since + 60 * i)) ⟨0, 0⟩ buckets) []

-- FAILED and LOST both count as failures for the chart.
def addRow (row : (Time × AttemptStatus) × Nat) (bucket : Bucket) : Bucket :=
  if row.1.2 = .succeeded then { bucket with succeeded := bucket.succeeded + row.2 }
  else { bucket with failed := bucket.failed + row.2 }

def fillBuckets (since : Time) (raw : List ((Time × AttemptStatus) × Nat)) :
    List (Time × Bucket) :=
  Tally.count (fun row => minuteOf row.1.1) addRow (emptyBuckets since) raw

def throughput (since : Time) (raw : List ((Time × AttemptStatus) × Nat)) :
    List ThroughputPoint :=
  ((fillBuckets since raw).insertionSort fun a b => a.1 ≤ b.1).map fun p =>
    ⟨p.1, p.2.succeeded, p.2.failed⟩

-- _compute. `now` is the clock of the API host; the queries read `dbNow`, the now() of the session's
-- transaction, which has begun before.
def compute (dbNow now : Time) (rank : Time × AttemptStatus → Nat) : Tx StatsOverview := do
  let counts ← select JobRepository.countsByStatus
  let (readyNow, scheduledLater) ← select (JobRepository.readyAndScheduledCounts dbNow)
  let workersOnline ← select WorkerRepository.countOnline
  let since := now - 3600
  let raw ← select (AttemptRepository.throughputByMinute since rank)
  return {
    countsByStatus := counts
    readyNow := readyNow
    scheduledLater := scheduledLater
    workersOnline := workersOnline
    dlqSize := counts .dead
    throughputLastHour := throughput since raw
    generatedAt := now }

end StatsService

end Chronos
