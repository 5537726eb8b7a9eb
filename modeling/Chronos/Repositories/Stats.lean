import Chronos.Repositories.Jobs

namespace Chronos

namespace JobRepository

def scheduledWhere (now : Time) (e : JobEntry) : Bool :=
  e.job.status = .pending ∧ now < e.job.runAt

def readyWhere (now : Time) (e : JobEntry) : Bool :=
  e.job.status = .pending ∧ e.job.runAt ≤ now

def readyAndScheduledCounts (now : Time) (v : Snapshot) : Nat × Nat :=
  ((v.jobsWhere (readyWhere now)).length, (v.jobsWhere (scheduledWhere now)).length)

-- now() - min(run_at), or 0 where there is no row.
def oldestAge (now : Time) (rows : List (JobId × JobEntry)) : ℚ :=
  ((rows.map fun p => p.2.job.runAt).min?.map fun runAt => now - runAt).getD 0

def oldestReadyAgeSeconds (now : Time) (v : Snapshot) : ℚ :=
  oldestAge now (v.jobsWhere (readyWhere now))

-- started_at - run_at of the jobs claimed in the window.
def claimWait (windowSeconds : Int) (now : Time) (e : JobEntry) : Option ℚ :=
  e.job.startedAt.bind fun startedAt =>
    if now - windowSeconds ≤ startedAt then some (startedAt - e.job.runAt) else none

def claimWaits (windowSeconds : Int) (now : Time) (v : Snapshot) : List ℚ :=
  (v.jobsWhere fun _ => true).filterMap fun p => claimWait windowSeconds now p.2

-- avg and max, each 0 where there is no row.
def claimWaitStats (windowSeconds : Int) (now : Time) (v : Snapshot) : ℚ × ℚ :=
  let waits := claimWaits windowSeconds now v
  (if waits.length = 0 then 0 else waits.sum / waits.length, waits.max?.getD 0)

end JobRepository

end Chronos
