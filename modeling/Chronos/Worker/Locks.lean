import Chronos.Txn.Rows
import Chronos.System

namespace Chronos

open Txn (TxId Rules Locks)
open ExecutionService

-- The loops of the worker's transactions under any rules. `P` is what the transaction knows of
-- its locks from the loop's begin to its end.
variable {C : Type} {R : Rules Key Row C} {t : TxId} {c : C} {P : Locks Key → Prop}

-- P is about other rows than those of jobs, or grows with them.
def KeepsJobs (P : Locks Key → Prop) : Prop :=
  ∀ id got held, P held → P (held.add (.job id) got)

theorem within_updateJobs {u : GuardedUpdate}
    (hjob : ∀ id held, P held → (Txn.Stmt.recheck (Key.job id) (fun e => u.guard e.job)
      (JobEntry.assign u.set) : Txn.Stmt Key Row Time _).Within R t c held)
    (hkeeps : KeepsJobs P) (ids : List JobId) {held : Locks Key} (hheld : P held) :
    (updateJobs u ids).Within R t c (fun _ => P) held := by
  induction ids generalizing held with
  | nil => exact hheld
  | cons id ids ih =>
      refine .stmt (hjob id held hheld) fun row _ => ?_
      exact (ih (hkeeps id _ held hheld)).bind fun n held' hheld' => hheld'

theorem within_lockRows {cond : JobEntry → Bool}
    (hjob : ∀ id held, P held →
      (Txn.Stmt.lock (Key.job id) cond : Txn.Stmt Key Row Time _).Within R t c held)
    (hkeeps : KeepsJobs P) (n : Nat) (ids : List JobId) {held : Locks Key} (hheld : P held) :
    (JobRepository.lockRows cond n ids).Within R t c (fun _ => P) held := by
  induction ids generalizing n held with
  | nil => cases n <;> exact hheld
  | cons id ids ih =>
      cases n with
      | zero => exact hheld
      | succ n =>
          refine .stmt (hjob id held hheld) fun row _ => ?_
          have hheld' := hkeeps id (row.isSome = true) held hheld
          cases row with
          | none => exact ih (n + 1) hheld'
          | some e => exact (ih n hheld').bind fun es held₂ hheld₂ => hheld₂

theorem within_reapJobs {rng : JobId → Draw} {now : Time}
    (hwrite : ∀ id set held, P held →
      (Txn.Stmt.write (Key.job id) set : Txn.Stmt Key Row Time _).Within R t c held)
    (es : List JobEntry) {held : Locks Key} (hheld : P held) :
    (reapJobs rng now es).Within R t c (fun _ => P) held := by
  induction es with
  | nil => exact hheld
  | cons e es ih =>
      refine .stmt (hwrite _ _ held hheld) fun _ _ => ?_
      cases decideFailure (policyOf e.job) e.job.attemptCount (rng e.job.id) with
      | error err => exact hheld
      | ok decision => exact .stmt (hwrite _ _ held hheld) fun _ _ => ih

theorem within_markStaleOffline {offlineAfterSeconds : Int} {now : Time}
    (hstale : ∀ id held, P held → (Txn.Stmt.recheck (Key.worker id)
      (staleWhere offlineAfterSeconds now) (fun w => { w with status := .offline, stoppedAt := some now }) :
        Txn.Stmt Key Row Time _).Within R t c held)
    (hkeeps : ∀ id got held, P held → P (held.add (.worker id) got)) (ids : List WorkerId)
    {held : Locks Key} (hheld : P held) :
    (markStaleOffline offlineAfterSeconds now ids).Within R t c (fun _ => P) held := by
  induction ids generalizing held with
  | nil => exact hheld
  | cons id ids ih => exact .stmt (hstale id held hheld) fun _ _ => ih (hkeeps id _ held hheld)

-- The end of a transaction.
theorem within_leave {α : Type} {a : α} {held : Locks Key} :
    (exit >>= fun _ => pure a : Tx α).Within R t c (fun _ _ => True) held :=
  ⟨trivial, fun _ _ => trivial⟩

theorem within_reapOnce {offlineAfterSeconds : Int} {rank : JobId → Nat} {rng : JobId → Draw}
    (hadvisory : (Txn.Stmt.lock (Key.advisory REAPER_ADVISORY_LOCK_KEY) (fun _ => true) :
      Txn.Stmt Key Row Time _).Within R t c .none)
    (hP : P (Locks.none.add (.advisory REAPER_ADVISORY_LOCK_KEY) True))
    (hlock : ∀ now id held, P held → (Txn.Stmt.lock (Key.job id)
      (fun e => JobRepository.expiredWhere now e.job) : Txn.Stmt Key Row Time _).Within R t c held)
    (hwrite : ∀ id set held, P held →
      (Txn.Stmt.write (Key.job id) set : Txn.Stmt Key Row Time _).Within R t c held)
    (hstale : ∀ now id held, P held → (Txn.Stmt.recheck (Key.worker id)
      (staleWhere offlineAfterSeconds now)
      (fun w => { w with status := .offline, stoppedAt := some now }) :
        Txn.Stmt Key Row Time _).Within R t c held)
    (hjobs : KeepsJobs P) (hworkers : ∀ id got held, P held → P (held.add (.worker id) got)) :
    (reapOnce offlineAfterSeconds rank rng).Within R t c (fun _ _ => True) .none := by
  refine .stmt trivial fun now _ => .stmt hadvisory fun gotLock _ => ?_
  cases gotLock with
  | none => exact .stmt trivial fun _ _ => within_leave
  | some row =>
      have hheld : P (Locks.none.add (.advisory REAPER_ADVISORY_LOCK_KEY)
          ((some row).isSome = true)) := by simpa using hP
      refine .stmt trivial fun ids _ => ?_
      refine (within_lockRows (hlock now) hjobs _ ids hheld).bind fun expired held hheld => ?_
      refine (within_reapJobs hwrite expired hheld).bind fun r held hheld => ?_
      cases r with
      | error err => exact within_leave
      | ok _ =>
          refine .stmt trivial fun stale _ => ?_
          refine (within_markStaleOffline (hstale now) hworkers stale hheld).bind fun _ held _ => ?_
          exact .stmt trivial fun _ _ => within_leave

theorem within_heartbeat {workerId : WorkerId} {leaseSeconds : ℚ} {rank : JobId → Nat}
    {Q : Locks Key → Prop}
    (hbeat : ∀ now, (Txn.Stmt.update (Key.worker workerId) (fun _ => true)
      (fun w => { w with lastHeartbeatAt := now }) : Txn.Stmt Key Row Time _).Within R t c .none)
    (hQ : ∀ got, (got = false → ¬ R.present c (.worker workerId)) →
      Q (Locks.none.add (.worker workerId) (got = true)))
    (hrevive : ∀ held, Q held → (Txn.Stmt.update (Key.worker workerId)
      (fun w => w.status = .offline) (fun w => { w with status := .online, stoppedAt := none }) :
        Txn.Stmt Key Row Time _).Within R t c held)
    (hP : ∀ got held, Q held → P (held.add (.worker workerId) got))
    (hjob : ∀ now id held, P held → (Txn.Stmt.recheck (Key.job id)
      (fun e => (JobRepository.extendLeases workerId leaseSeconds now).guard e.job)
      (JobEntry.assign (JobRepository.extendLeases workerId leaseSeconds now).set) :
        Txn.Stmt Key Row Time _).Within R t c held)
    (hjobs : KeepsJobs P) :
    (heartbeat workerId leaseSeconds rank).Within R t c (fun _ _ => True) .none := by
  refine .stmt trivial fun now _ => .stmt (hbeat now) fun row hrow => ?_
  have hheld : Q (Locks.none.add (.worker workerId) (row.isSome = true)) := by
    refine hQ row.isSome fun hnone hpresent => ?_
    obtain ⟨v, hv⟩ := hrow.2 (by simpa using hnone) hpresent
    simp at hv
  refine .stmt (hrevive _ hheld) fun revived _ => .stmt trivial fun ids _ => ?_
  refine (within_updateJobs (hjob now) hjobs ids (hP _ _ hheld)).bind fun extended held _ => ?_
  exact .stmt trivial fun _ _ => within_leave

end Chronos
