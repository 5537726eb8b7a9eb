import Chronos.Refinement.Checks

namespace Chronos

open Txn (TxId)

variable {m : Db} {s : State}

namespace JobEvent

-- A release gives the attempt back.
def isRefund : JobEvent → Bool
  | .finished _ _ .release => true
  | _ => false

-- What becomes of the attempt count at an event.
def count : JobEvent → Int → Int
  | .claimed _ _ _, n => n + 1
  | .finished _ _ .release, n => n - 1
  | .created _, _ => 0
  | .requeued, _ => 0
  | _, n => n

end JobEvent

-- What has happened since the last requeue, or since the job was created.
def epoch (log : List JobEvent) : List JobEvent :=
  log.takeWhile fun ev => ev ≠ .requeued

def claims (log : List JobEvent) : Nat := (epoch log).countP JobEvent.isClaim

def refunds (log : List JobEvent) : Nat := (epoch log).countP JobEvent.isRefund

theorem epoch_cons {ev : JobEvent} (log : List JobEvent) (hev : ev ≠ .requeued) :
    epoch (ev :: log) = ev :: epoch log := by
  rw [epoch, List.takeWhile_cons_of_pos (by rwa [decide_eq_true_eq]), epoch]

theorem claims_cons {ev : JobEvent} (log : List JobEvent) (hev : ev ≠ .requeued) :
    claims (ev :: log) = claims log + if ev.isClaim then 1 else 0 := by
  rw [claims, epoch_cons log hev, List.countP_cons, claims]

theorem refunds_cons {ev : JobEvent} (log : List JobEvent) (hev : ev ≠ .requeued) :
    refunds (ev :: log) = refunds log + if ev.isRefund then 1 else 0 := by
  rw [refunds, epoch_cons log hev, List.countP_cons, refunds]

-- The attempt count is the number of claims less the refunds.
theorem count_cons {ev : JobEvent} {log : List JobEvent} {n : Int} {status : JobStatus}
    (hev : ev.happensIn status = true) (h : n + refunds log = claims log) :
    ev.count n + refunds (ev :: log) = claims (ev :: log) := by
  by_cases hne : ev = .requeued
  · subst hne
    rfl
  · rw [claims_cons log hne, refunds_cons log hne]
    cases ev with
    | created tx => cases hev
    | requeued => exact absurd rfl hne
    | finished claim tx how =>
        cases how <;> simp [JobEvent.count, JobEvent.isClaim, JobEvent.isRefund] <;> omega
    | _ =>
        simp [JobEvent.count, JobEvent.isClaim, JobEvent.isRefund]
        omega

theorem count_of_applies {op : JobOp} {e e' : JobEntry} (h : op.Applies e e') :
    e'.job.attemptCount = match op.event e with
      | some ev => ev.count e.job.attemptCount
      | none => e.job.attemptCount := by
  cases h with
  | finish claim tx job workerId o now e hrunning hlocked =>
      cases o with
      | failure error decision =>
          obtain ⟨retry, delay⟩ := decision
          cases retry <;> rfl
      | _ => rfl
  | reclaim rng now decision e hrunning hdecision =>
      simp only [JobOp.event, hdecision]
      obtain ⟨retry, delay⟩ := decision
      cases retry <;> rfl
  | _ => rfl

-- The row and the history of a job that is within its retry budget.
structure JobEntry.WithinBudget (e : JobEntry) : Prop where
  le : e.job.attemptCount ≤ e.job.maxAttempts
  lt : e.job.status = .pending ∨ e.job.status = .cancelled →
    e.job.attemptCount < e.job.maxAttempts
  counted : e.job.attemptCount + refunds e.log = claims e.log
  -- In every epoch, at any time of it.
  bounded : ∀ log, log <:+ e.log → (claims log : Int) ≤ e.job.maxAttempts + refunds log

-- A late complete_failure decides to retry on its snapshot; the row has an attempt left for that.
def retriesInBudget (f : Finalizer) (job : Job) (e : JobEntry) : Bool :=
  match f with
  | .completeFailure _ _ _ =>
      decide (job.attemptCount < job.maxAttempts → e.job.attemptCount < e.job.maxAttempts)
  | _ => true

def budgetCondition : Conditions :=
  { Conditions.none with finalize := fun f _ job e => retriesInBudget f job e = true }

theorem not_idle {status : JobStatus} {φ : Prop} (hpending : status ≠ .pending)
    (hcancelled : status ≠ .cancelled) : status = .pending ∨ status = .cancelled → φ :=
  fun hidle => absurd hidle (not_or.mpr ⟨hpending, hcancelled⟩)

-- The row a finalizer or a sweep leaves behind.
theorem budget_of_applies {op : JobOp} {e e' : JobEntry} (h : op.Applies e e')
    (hok : e.job.checks = true) (hb : e.WithinBudget)
    (hretry : ∀ claim tx job workerId error decision now,
      op = .finish claim tx job workerId (.failure error decision) now → decision.retry = true →
        e.job.attemptCount < e.job.maxAttempts) :
    e'.job.attemptCount ≤ e'.job.maxAttempts ∧
      (e'.job.status = .pending ∨ e'.job.status = .cancelled →
        e'.job.attemptCount < e'.job.maxAttempts) := by
  have hle := hb.le
  cases h with
  | claim tx workerId leaseSeconds now pass e hpending hready =>
      have hlt := hb.lt (.inl hpending)
      exact ⟨hlt, not_idle nofun nofun⟩
  | extend workerId leaseSeconds now e hlocked hrunning => exact ⟨hle, hb.lt⟩
  | finish claim tx job workerId o now e hrunning hlocked =>
      cases o with
      | success result => exact ⟨hle, not_idle nofun nofun⟩
      | failure error decision =>
          have hlt := hretry claim tx job workerId error decision now rfl
          obtain ⟨retry, delay⟩ := decision
          cases retry with
          | true => exact ⟨hle, fun _ => hlt rfl⟩
          | false => exact ⟨hle, not_idle nofun nofun⟩
      | release =>
          have hlt : e.job.attemptCount - 1 < e.job.maxAttempts := by omega
          exact ⟨hlt.le, fun _ => hlt⟩
  | reclaim rng now decision e hrunning hdecision =>
      have hlt := (decideFailure_retry hdecision).mp
      obtain ⟨retry, delay⟩ := decision
      cases retry with
      | true => exact ⟨hle, fun _ => hlt rfl⟩
      | false => exact ⟨hle, not_idle nofun nofun⟩
  | cancel ownerId now e howner hpending => exact ⟨hle, fun _ => hb.lt (.inl hpending)⟩
  | requeue ownerId now e howner hended =>
      have hmax : 1 ≤ e.job.maxAttempts := by
        simp only [Job.checks, decide_eq_true_eq] at hok
        exact hok.1
      have hlt : 0 < e.job.maxAttempts := by omega
      exact ⟨hlt.le, fun _ => hlt⟩
  | summarize text e => exact ⟨hle, hb.lt⟩

theorem withinBudget_of_applies {op : JobOp} {e e' : JobEntry} (h : op.Applies e e')
    (hok : e.job.checks = true) (hb : e.WithinBudget)
    (hretry : ∀ claim tx job workerId error decision now,
      op = .finish claim tx job workerId (.failure error decision) now → decision.retry = true →
        e.job.attemptCount < e.job.maxAttempts) : e'.WithinBudget := by
  obtain ⟨hle, hlt⟩ := budget_of_applies h hok hb hretry
  have hlog := h.log
  have hcount := count_of_applies h
  have hmax : e'.job.maxAttempts = e.job.maxAttempts := h.sameRow.maxAttempts
  cases hev : op.event e with
  | none =>
      rw [hev, Option.toList_none, List.nil_append] at hlog
      rw [hev] at hcount
      refine ⟨hle, hlt, ?_, ?_⟩
      · rw [hlog, hcount]
        exact hb.counted
      · rw [hlog, hmax]
        exact hb.bounded
  | some ev =>
      rw [hev, Option.toList_some, List.singleton_append] at hlog
      rw [hev] at hcount
      have hcounted : e'.job.attemptCount + refunds e'.log = claims e'.log := by
        rw [hlog, hcount]
        exact count_cons (h.happensIn hev) hb.counted
      refine ⟨hle, hlt, hcounted, fun log hsuffix => ?_⟩
      rw [hlog, List.suffix_cons_iff] at hsuffix
      rcases hsuffix with rfl | hold
      · rw [← hlog]
        omega
      · rw [hmax]
        exact hb.bounded log hold

theorem withinBudget_of_created {c : Call} {t : TxId} {id : JobId} {e : JobEntry}
    (h : Created c t m id e) : e.WithinBudget := by
  have hchecks := h.ok.checks
  simp only [Job.checks, decide_eq_true_eq] at hchecks
  have hlt : e.job.attemptCount < e.job.maxAttempts := by
    rw [h.unclaimed]
    omega
  refine ⟨hlt.le, fun _ => hlt, ?_, fun log hsuffix => ?_⟩
  · rw [h.unclaimed, h.log]
    rfl
  · rw [h.log, List.suffix_cons_iff, List.suffix_nil] at hsuffix
    have hzero : claims log = 0 := by
      rcases hsuffix with rfl | rfl <;> rfl
    rw [hzero]
    omega

theorem withinBudget_of_run (hm : Initial m) (h : Run budgetCondition m s) :
    ∀ id e, committedJob s.mem id = some e → e.WithinBudget := by
  refine h.entries hm (R := fun _ e => e.WithinBudget)
    (fun _ _ _ _ _ hnew => withinBudget_of_created hnew) ?_
  rintro c t m op id e e' - hok ⟨hperf, happ, hside⟩ hb
  refine withinBudget_of_applies happ hok.checks hb ?_
  rintro claim tx job workerId error decision now rfl hdecision
  cases hperf with
  | failure claim job workerId error rng summary decision now hd =>
      have hin := hside.2.2 _ rfl
      simp only [budgetCondition, retriesInBudget, decide_eq_true_eq] at hin
      exact hin ((decideFailure_retry hd).mp hdecision)

-- A job that has used up its budget and is not executing has succeeded or is in the DLQ.
def JobEntry.Spent (e : JobEntry) : Prop :=
  (claims e.log : Int) = e.job.maxAttempts + refunds e.log

theorem JobEntry.WithinBudget.ended {e : JobEntry} (h : e.WithinBudget) (hspent : e.Spent)
    (hidle : e.job.status ≠ .running) : e.job.status = .succeeded ∨ e.job.status = .dead := by
  have hcount : ¬ e.job.attemptCount < e.job.maxAttempts := by
    have hcounted := h.counted
    rw [JobEntry.Spent] at hspent
    omega
  cases hstatus : e.job.status with
  | pending => exact absurd (h.lt (.inl hstatus)) hcount
  | running => exact absurd hstatus hidle
  | succeeded => exact .inl rfl
  | cancelled => exact absurd (h.lt (.inr hstatus)) hcount
  | dead => exact .inr rfl

-- In a run that meets the condition no job is claimed beyond its budget, and the last claim of the
-- budget ends in SUCCEEDED or in the DLQ.
theorem retry_budget (hm : Initial m) (h : Run budgetCondition m s) {id : JobId} {e : JobEntry}
    (he : committedJob s.mem id = some e) : e.WithinBudget ∧
      (e.Spent → e.job.status ≠ .running → e.job.status ≠ .succeeded → e.job.status = .dead) :=
  have hb := withinBudget_of_run hm h id e he
  ⟨hb, fun hspent hidle hfailed => (hb.ended hspent hidle).resolve_left hfailed⟩

-- Worker 5 reports the failure of its claim.
def failedEvents : List Event :=
  claimedEvents ++ whole 3 (.finalize 2 (exampleJob 5 1 0) 5
    (.completeFailure "boom" Draw.zero none)) 5

def budgetChecks : Checks := { Checks.none with finalize := fun f _ job e => retriesInBudget f job e }

theorem budgetChecks_covers : budgetChecks.Covers budgetCondition where
  cap _ _ h := nomatch h
  fixed _ := trivial
  finalize _ _ _ _ h := h
  summary _ _ _ _ := trivial
  gated h := h.elim
  exclusive _ _ h := h.elim

theorem retry_budget_failed :
    (committedJob (budgetChecks.stateAfter failedEvents).mem 7).any (fun e =>
      decide (e.job.status = .pending) && decide (e.job.attemptCount = 1)) = true ∧
    ∀ id e, committedJob (budgetChecks.stateAfter failedEvents).mem id = some e →
      e.WithinBudget ∧ (e.Spent → e.job.status ≠ .running → e.job.status ≠ .succeeded →
        e.job.status = .dead) :=
  ⟨by decide +kernel, fun _ _ he => retry_budget exampleDb_initial
    (budgetChecks.run_stateAfter failedEvents budgetChecks_covers) he⟩

-- A job of two attempts. Its first execution, which the reaper has ended, reports a failure while
-- the second runs under the same worker.
def overspentEvents : List Event :=
  whole 1 (.enqueue exampleUser { exampleBody none [] with maxAttempts := some 2 } ⟨7, 8, 9⟩) 8 ++
    whole 2 (.claimJobs (exampleClaim 5)) 7 ++ [.tick 31] ++
    whole 3 (.reapOnce 60 id fun _ => Draw.zero) 9 ++ [.tick 40] ++
    whole 4 (.claimJobs (exampleClaim 5)) 7 ++
    whole 5 (.finalize 2 { exampleJob 5 1 0 with maxAttempts := 2 } 5
      (.completeFailure "boom" Draw.zero none)) 5

theorem late_failure_overspends : ¬ ∀ m s, Initial m → system.Reachable m s →
    ∀ id e, committedJob s.mem id = some e → e.job.status = .pending →
      e.job.attemptCount < e.job.maxAttempts := by
  intro h
  have hafter : (committedJob (stateAfter overspentEvents).mem 7).any (fun e =>
      decide (e.job.status = .pending) && decide (e.job.attemptCount = e.job.maxAttempts)) = true := by
    decide +kernel
  obtain ⟨e, he, hrow⟩ := (Option.any_eq_true _ _).mp hafter
  rw [Bool.and_eq_true, decide_eq_true_eq, decide_eq_true_eq] at hrow
  have hlt := h exampleDb _ exampleDb_initial (reachable_stateAfter overspentEvents) 7 e he hrow.1
  omega

end Chronos
