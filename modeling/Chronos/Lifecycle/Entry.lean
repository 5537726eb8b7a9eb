import Chronos.Lifecycle.Op
import Mathlib.Data.List.Chain

namespace Chronos

open Txn (TxId)

namespace JobEvent

-- The status of the row from the event on.
def status : JobEvent → JobStatus
  | .created _ => .pending
  | .claimed _ _ _ => .running
  | .finished _ _ .success => .succeeded
  | .finished _ _ .retry => .pending
  | .finished _ _ .dead => .dead
  | .finished _ _ .release => .pending
  | .reclaimed true => .pending
  | .reclaimed false => .dead
  | .cancelled => .cancelled
  | .requeued => .pending

-- Whether the event can happen to a row of this status.
def happensIn : JobEvent → JobStatus → Bool
  | .created _, _ => false
  | .claimed _ _ _, status => status = .pending
  | .finished _ _ _, status => status = .running
  | .reclaimed _, status => status = .running
  | .cancelled, status => status = .pending
  | .requeued, status => status = .dead ∨ status = .cancelled

def isClaim : JobEvent → Bool
  | .claimed _ _ _ => true
  | _ => false

-- What an operation reports is one of the transitions listed on JobStatus.
theorem allows_of_happensIn {ev : JobEvent} {status : JobStatus} (h : ev.happensIn status = true) :
    status.allows ev.status = true := by
  cases ev with
  | created tx => simp [happensIn] at h
  | claimed tx workerId pass =>
      simp only [happensIn, decide_eq_true_eq] at h
      exact h ▸ rfl
  | finished claim tx how =>
      simp only [happensIn, decide_eq_true_eq] at h
      cases how <;> exact h ▸ rfl
  | reclaimed retry =>
      simp only [happensIn, decide_eq_true_eq] at h
      cases retry <;> exact h ▸ rfl
  | cancelled =>
      simp only [happensIn, decide_eq_true_eq] at h
      exact h ▸ rfl
  | requeued =>
      simp only [happensIn, decide_eq_true_eq] at h
      rcases h with h | h <;> exact h ▸ rfl

end JobEvent

-- The columns of a job row that go with its status.
structure Job.RowOk (job : Job) : Prop where
  locked : job.lockedBy.isSome = true ↔ job.status = .running
  leased : job.leaseExpiresAt.isSome = true ↔ job.status = .running
  finished : job.finishedAt.isSome = true ↔
    job.status = .succeeded ∨ job.status = .cancelled ∨ job.status = .dead
  result : job.result.isSome = true → job.status = .succeeded
  noError : job.status = .succeeded → job.lastError = none
  error : job.status = .dead → job.lastError.isSome = true
  attempts : 0 ≤ job.attemptCount
  claimed : job.status = .running → 1 ≤ job.attemptCount

namespace Job.RowOk

variable {job : Job}

theorem waiting (hstatus : job.status = .pending) (hlocked : job.lockedBy = none)
    (hlease : job.leaseExpiresAt = none) (hfinished : job.finishedAt = none)
    (hresult : job.result = none) (hattempts : 0 ≤ job.attemptCount) : job.RowOk := by
  constructor <;> simp [hstatus, hlocked, hlease, hfinished, hresult, hattempts]

theorem executing (hstatus : job.status = .running) (hlocked : job.lockedBy.isSome = true)
    (hlease : job.leaseExpiresAt.isSome = true) (hfinished : job.finishedAt = none)
    (hresult : job.result = none) (hattempts : 1 ≤ job.attemptCount) : job.RowOk := by
  have hpositive : 0 ≤ job.attemptCount := by omega
  constructor <;> simp [hstatus, hlocked, hlease, hfinished, hresult, hattempts, hpositive]

theorem ended (hstatus : job.status = .succeeded ∨ job.status = .cancelled ∨ job.status = .dead)
    (hlocked : job.lockedBy = none) (hlease : job.leaseExpiresAt = none)
    (hfinished : job.finishedAt.isSome = true)
    (hresult : job.result.isSome = true → job.status = .succeeded)
    (hnoError : job.status = .succeeded → job.lastError = none)
    (herror : job.status = .dead → job.lastError.isSome = true)
    (hattempts : 0 ≤ job.attemptCount) : job.RowOk := by
  have hrunning : job.status ≠ .running := by
    rcases hstatus with hs | hs | hs <;> simp [hs]
  refine ⟨?_, ?_, ?_, hresult, hnoError, herror, hattempts, fun hs => absurd hs hrunning⟩
  · simp [hlocked, hrunning]
  · simp [hlease, hrunning]
  · simp [hfinished, hstatus]

theorem lockedBy_eq_none (h : job.RowOk) (hstatus : job.status ≠ .running) : job.lockedBy = none := by
  by_contra hsome
  exact hstatus (h.locked.mp (Option.isSome_iff_ne_none.mpr hsome))

theorem leaseExpiresAt_eq_none (h : job.RowOk) (hstatus : job.status ≠ .running) :
    job.leaseExpiresAt = none := by
  by_contra hsome
  exact hstatus (h.leased.mp (Option.isSome_iff_ne_none.mpr hsome))

theorem finishedAt_eq_none (h : job.RowOk) (hstatus : job.status = .pending ∨ job.status = .running) :
    job.finishedAt = none := by
  have hfinished := h.finished
  rcases hstatus with hs | hs <;> simpa [hs] using hfinished

theorem result_eq_none (h : job.RowOk) (hstatus : job.status ≠ .succeeded) : job.result = none := by
  by_contra hsome
  exact hstatus (h.result (Option.isSome_iff_ne_none.mpr hsome))

end Job.RowOk

namespace JobEntry

-- The history of a job and its row tell the same story.
structure Coherent (e : JobEntry) : Prop where
  chain : e.log.IsChain fun new old => new.happensIn old.status = true
  status : (e.log.head?.map JobEvent.status) = some e.job.status
  holder : ∀ tx workerId pass, e.log.head? = some (.claimed tx workerId pass) →
    e.job.lockedBy = some workerId

structure Ok (e : JobEntry) : Prop where
  row : e.job.RowOk
  coherent : e.Coherent
  checks : e.job.checks = true

end JobEntry

namespace JobOp

-- What an operation adds to the history of its job.
def event (op : JobOp) (e : JobEntry) : Option JobEvent :=
  match op with
  | .claim tx workerId _ _ pass => some (.claimed tx workerId pass)
  | .extend _ _ _ => none
  | .finish c tx _ _ o _ => some (.finished c tx o.how)
  | .reclaim rng _ =>
      match decideFailure (policyOf e.job) e.job.attemptCount rng with
      | .ok decision => some (.reclaimed decision.retry)
      | .error _ => none
  | .cancel _ _ => some .cancelled
  | .requeue _ _ => some .requeued
  | .summarize _ => none

namespace Applies

variable {op : JobOp} {e e' : JobEntry}

theorem sameRow (h : op.Applies e e') : e.SameRow e' := by
  cases h with
  | finish c tx snapshot workerId o now e hrunning hlocked =>
      cases o with
      | success result => exact ⟨rfl, rfl, rfl, rfl, rfl⟩
      | failure error decision =>
          obtain ⟨retry, delay⟩ := decision
          cases retry <;> exact ⟨rfl, rfl, rfl, rfl, rfl⟩
      | release => exact ⟨rfl, rfl, rfl, rfl, rfl⟩
  | reclaim rng now decision e hrunning hdecision =>
      obtain ⟨retry, delay⟩ := decision
      cases retry <;> exact ⟨rfl, rfl, rfl, rfl, rfl⟩
  | _ => exact ⟨rfl, rfl, rfl, rfl, rfl⟩

theorem deps (h : op.Applies e e') : e'.dependsOn = e.dependsOn := by
  cases h with
  | finish c tx snapshot workerId o now e hrunning hlocked =>
      cases o with
      | failure error decision =>
          obtain ⟨retry, delay⟩ := decision
          cases retry <;> rfl
      | _ => rfl
  | reclaim rng now decision e hrunning hdecision =>
      obtain ⟨retry, delay⟩ := decision
      cases retry <;> rfl
  | _ => rfl

theorem log (h : op.Applies e e') : e'.log = (op.event e).toList ++ e.log := by
  cases h with
  | reclaim rng now decision e hrunning hdecision =>
      simp [event, hdecision, reclaimed, JobEntry.amend, JobEntry.finishAttempt]
  | _ => rfl

theorem happensIn (h : op.Applies e e') {ev : JobEvent} (hev : op.event e = some ev) :
    ev.happensIn e.job.status = true := by
  cases h with
  | claim tx workerId leaseSeconds now pass e hpending hready =>
      cases hev
      simp [JobEvent.happensIn, hpending]
  | extend workerId leaseSeconds now e hlocked hrunning => simp [event] at hev
  | finish c tx snapshot workerId o now e hrunning hlocked =>
      cases hev
      simp [JobEvent.happensIn, hrunning]
  | reclaim rng now decision e hrunning hdecision =>
      simp only [event, hdecision, Option.some.injEq] at hev
      subst hev
      simp [JobEvent.happensIn, hrunning]
  | cancel ownerId now e howner hpending =>
      cases hev
      simp [JobEvent.happensIn, hpending]
  | requeue ownerId now e howner hended =>
      cases hev
      simp [JobEvent.happensIn, hended]
  | summarize text e => simp [event] at hev

theorem status_of_event (h : op.Applies e e') {ev : JobEvent} (hev : op.event e = some ev) :
    e'.job.status = ev.status := by
  cases h with
  | claim tx workerId leaseSeconds now pass e hpending hready =>
      cases hev
      rfl
  | extend workerId leaseSeconds now e hlocked hrunning => simp [event] at hev
  | finish c tx snapshot workerId o now e hrunning hlocked =>
      cases hev
      cases o with
      | success result => rfl
      | failure error decision =>
          obtain ⟨retry, delay⟩ := decision
          cases retry <;> rfl
      | release => rfl
  | reclaim rng now decision e hrunning hdecision =>
      simp only [event, hdecision, Option.some.injEq] at hev
      subst hev
      obtain ⟨retry, delay⟩ := decision
      cases retry <;> rfl
  | cancel ownerId now e howner hpending =>
      cases hev
      rfl
  | requeue ownerId now e howner hended =>
      cases hev
      rfl
  | summarize text e => simp [event] at hev

-- An operation without an event leaves status and lease holder alone.
theorem quiet (h : op.Applies e e') (hev : op.event e = none) :
    e'.job.status = e.job.status ∧ e'.job.lockedBy = e.job.lockedBy := by
  cases h with
  | reclaim rng now decision e hrunning hdecision => simp [event, hdecision] at hev
  | extend => exact ⟨rfl, rfl⟩
  | summarize => exact ⟨rfl, rfl⟩
  | _ => simp [event] at hev

theorem row (h : op.Applies e e') (hok : e.job.RowOk) : e'.job.RowOk := by
  have hattempts := hok.attempts
  cases h with
  | claim tx workerId leaseSeconds now pass e hpending hready =>
      have hcount : 1 ≤ e.job.attemptCount + 1 := by omega
      have hresult : e.job.result = none := hok.result_eq_none (by simp [hpending])
      exact .executing rfl rfl rfl (hok.finishedAt_eq_none (.inl hpending)) hresult hcount
  | extend workerId leaseSeconds now e hlocked hrunning =>
      have hresult : e.job.result = none := hok.result_eq_none (by simp [hrunning])
      exact .executing hrunning (hok.locked.mpr hrunning) rfl
        (hok.finishedAt_eq_none (.inr hrunning)) hresult (hok.claimed hrunning)
  | finish c tx snapshot workerId o now e hrunning hlocked =>
      have hfinished := hok.finishedAt_eq_none (.inr hrunning)
      have hresult : e.job.result = none := hok.result_eq_none (by simp [hrunning])
      have hcount := hok.claimed hrunning
      cases o with
      | success result =>
          exact .ended (.inl rfl) rfl rfl rfl (fun _ => rfl) (fun _ => rfl) nofun hattempts
      | failure error decision =>
          obtain ⟨retry, delay⟩ := decision
          cases retry with
          | true => exact .waiting rfl rfl rfl hfinished hresult hattempts
          | false =>
              have hnone : e.job.result.isSome ≠ true := by simp [hresult]
              exact .ended (.inr (.inr rfl)) rfl rfl rfl (fun hs => absurd hs hnone) nofun
                (fun _ => rfl) hattempts
      | release =>
          have hcount' : 0 ≤ e.job.attemptCount - 1 := by omega
          exact .waiting rfl rfl rfl hfinished hresult hcount'
  | reclaim rng now decision e hrunning hdecision =>
      have hfinished := hok.finishedAt_eq_none (.inr hrunning)
      have hresult : e.job.result = none := hok.result_eq_none (by simp [hrunning])
      have hnone : e.job.result.isSome ≠ true := by simp [hresult]
      obtain ⟨retry, delay⟩ := decision
      cases retry with
      | true => exact .waiting rfl rfl rfl hfinished hresult hattempts
      | false =>
          exact .ended (.inr (.inr rfl)) rfl rfl rfl (fun hs => absurd hs hnone) nofun
            (fun _ => rfl) hattempts
  | cancel ownerId now e howner hpending =>
      have hidle : e.job.status ≠ .running := by simp [hpending]
      have hresult : e.job.result = none := hok.result_eq_none (by simp [hpending])
      have hnone : e.job.result.isSome ≠ true := by simp [hresult]
      exact .ended (.inr (.inl rfl)) (hok.lockedBy_eq_none hidle) (hok.leaseExpiresAt_eq_none hidle)
        rfl (fun hs => absurd hs hnone) nofun nofun hattempts
  | requeue ownerId now e howner hended =>
      exact .waiting rfl rfl rfl rfl rfl (le_refl 0)
  | summarize text e =>
      exact ⟨hok.locked, hok.leased, hok.finished, hok.result, hok.noError, hok.error, hattempts,
        hok.claimed⟩

theorem checks (h : op.Applies e e') : e'.job.checks = e.job.checks := by
  cases h with
  | finish c tx snapshot workerId o now e hrunning hlocked =>
      cases o with
      | failure error decision =>
          obtain ⟨retry, delay⟩ := decision
          cases retry <;> rfl
      | _ => rfl
  | reclaim rng now decision e hrunning hdecision =>
      obtain ⟨retry, delay⟩ := decision
      cases retry <;> rfl
  | _ => rfl

theorem locked_of_claimed (h : op.Applies e e') {tx : TxId} {workerId : WorkerId} {pass : Pass}
    (hev : op.event e = some (.claimed tx workerId pass)) : e'.job.lockedBy = some workerId := by
  cases h with
  | claim =>
      simp only [event, Option.some.injEq, JobEvent.claimed.injEq] at hev
      obtain ⟨rfl, rfl, rfl⟩ := hev
      rfl
  | reclaim rng now decision e hrunning hdecision => simp [event, hdecision] at hev
  | _ => simp [event] at hev

theorem coherent (h : op.Applies e e') (hok : e.Coherent) : e'.Coherent := by
  have hlog := h.log
  cases hev : op.event e with
  | none =>
      rw [hev, Option.toList_none, List.nil_append] at hlog
      obtain ⟨hstatus, hlocked⟩ := h.quiet hev
      exact ⟨hlog ▸ hok.chain, by rw [hlog, hstatus, hok.status],
        by rw [hlog, hlocked]; exact hok.holder⟩
  | some ev =>
      rw [hev, Option.toList_some, List.singleton_append] at hlog
      refine ⟨?_, ?_, ?_⟩
      · rw [hlog, List.isChain_cons]
        refine ⟨fun old hold => ?_, hok.chain⟩
        have hstatus := hok.status
        rw [Option.mem_def.mp hold, Option.map_some, Option.some.injEq] at hstatus
        rw [hstatus]
        exact h.happensIn hev
      · rw [hlog, h.status_of_event hev]
        rfl
      · intro tx workerId pass hhead
        rw [hlog, List.head?_cons, Option.some.injEq] at hhead
        exact h.locked_of_claimed (hev.trans (congrArg some hhead))

theorem ok (h : op.Applies e e') (hok : e.Ok) : e'.Ok :=
  ⟨h.row hok.row, h.coherent hok.coherent, h.checks.trans hok.checks⟩

-- SUCCEEDED is never left.
theorem succeeded (h : op.Applies e e') (hs : e.job.status = .succeeded) :
    e'.job.status = .succeeded := by
  cases h with
  | summarize text e => exact hs
  | _ => simp_all

theorem status_allowed (h : op.Applies e e') :
    e'.job.status = e.job.status ∨ e.job.status.allows e'.job.status = true := by
  cases hev : op.event e with
  | none => exact .inl (h.quiet hev).1
  | some ev =>
      rw [h.status_of_event hev]
      exact .inr (JobEvent.allows_of_happensIn (h.happensIn hev))

end Applies

end JobOp

namespace JobEntry

variable {e : JobEntry}

theorem Ok.running_iff (h : e.Ok) : e.job.status = .running ↔ e.currentClaim.isSome = true := by
  have hstatus := h.coherent.status
  unfold currentClaim
  cases hlog : e.log with
  | nil => simp [hlog] at hstatus
  | cons ev rest =>
      rw [hlog, List.head?_cons, Option.map_some, Option.some.injEq] at hstatus
      rw [← hstatus]
      cases ev with
      | claimed tx workerId pass => simp [JobEvent.status]
      | finished claim tx how => cases how <;> simp [JobEvent.status]
      | reclaimed retry => cases retry <;> simp [JobEvent.status]
      | _ => simp [JobEvent.status]

-- A row that passes the lease guard of a worker is in a claim of that worker.
theorem Ok.claimed_of_guard (h : e.Ok) {workerId : WorkerId}
    (hg : leaseGuard workerId e.job = true) :
    ∃ tx pass, e.log.head? = some (.claimed tx workerId pass) ∧ e.currentClaim = some tx := by
  obtain ⟨hrunning, hlocked⟩ := JobOp.leaseGuard_iff.mp hg
  have hclaim := h.running_iff.mp hrunning
  unfold currentClaim at hclaim ⊢
  cases hlog : e.log with
  | nil => simp [hlog] at hclaim
  | cons ev rest =>
      cases ev with
      | claimed tx holder pass =>
          have hholder := h.coherent.holder tx holder pass (by rw [hlog]; rfl)
          rw [hlocked, Option.some.injEq] at hholder
          exact ⟨tx, pass, by rw [hholder]; rfl, rfl⟩
      | _ => simp [hlog] at hclaim

end JobEntry

end Chronos
