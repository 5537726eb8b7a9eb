import Chronos.Refinement.Checks

namespace Chronos

open Txn (TxId)

variable {cond : Conditions} {m : Db} {s : State}

namespace JobEntry

-- The RUNNING rows of job_attempts.
def inFlight (e : JobEntry) : List JobAttempt := e.attempts.filter fun a => a.status = .running

-- The attempts of a job tell what its row tells.
structure Audited (e : JobEntry) : Prop where
  running : e.job.status = .running ↔ e.inFlight.length = 1
  current : ∀ a ∈ e.inFlight, a.attemptNumber = e.job.attemptCount ∧ a.workerId = e.job.lockedBy
  idle : e.job.status ≠ .running → e.inFlight = []

variable {e e' : JobEntry}

theorem mem_inFlight {a : JobAttempt} :
    a ∈ e.inFlight ↔ a ∈ e.attempts ∧ a.status = .running := by
  rw [inFlight, List.mem_filter, decide_eq_true_eq]

theorem Audited.of_idle (hstatus : e.job.status ≠ .running) (h : e.inFlight = []) : e.Audited where
  running := by
    rw [h]
    exact ⟨fun hs => absurd hs hstatus, fun hlen => nomatch hlen⟩
  current a ha := by
    rw [h] at ha
    cases ha
  idle _ := h

theorem Audited.of_running {a : JobAttempt} (hstatus : e.job.status = .running)
    (h : e.inFlight = [a]) (hnumber : a.attemptNumber = e.job.attemptCount)
    (hworker : a.workerId = e.job.lockedBy) : e.Audited where
  running := by
    rw [h]
    exact ⟨fun _ => rfl, fun _ => hstatus⟩
  current b hb := by
    rw [h, List.mem_singleton] at hb
    exact hb ▸ ⟨hnumber, hworker⟩
  idle hs := absurd hstatus hs

-- The columns the attempts are compared with, and the attempts, are as they were.
theorem Audited.congr (h : e.Audited) (hattempts : e'.attempts = e.attempts)
    (hstatus : e'.job.status = e.job.status) (hcount : e'.job.attemptCount = e.job.attemptCount)
    (hlocked : e'.job.lockedBy = e.job.lockedBy) : e'.Audited := by
  have hsame : e'.inFlight = e.inFlight := by rw [inFlight, hattempts, inFlight]
  constructor
  · rw [hsame, hstatus]
    exact h.running
  · rw [hsame, hcount, hlocked]
    exact h.current
  · rw [hsame, hstatus]
    exact h.idle

theorem inFlight_startAttempt (workerId : WorkerId) (n : Int) (now : Time) (h : e.inFlight = []) :
    ∃ a, (e.startAttempt workerId n now).inFlight = [a] ∧ a.attemptNumber = n ∧
      a.workerId = some workerId := by
  refine ⟨⟨some workerId, n, .running, none, now, none⟩, ?_, rfl, rfl⟩
  rw [inFlight, startAttempt, List.filter_append, ← inFlight, h]
  rfl

-- AttemptRepository.finish leaves no row RUNNING whose number it was given.
theorem inFlight_finishAttempt {n : Int} {status : AttemptStatus} (error : Option String)
    (now : Time) (hstatus : status ≠ .running) (h : ∀ a ∈ e.inFlight, a.attemptNumber = n) :
    (e.finishAttempt n status error now).inFlight = [] := by
  refine List.eq_nil_iff_forall_not_mem.mpr fun b hb => ?_
  obtain ⟨hmem, hrunning⟩ := mem_inFlight.mp hb
  obtain ⟨a, ha, rfl⟩ := List.mem_map.mp hmem
  by_cases hopen : a.inFlight n = true
  · rw [if_pos hopen] at hrunning
    exact hstatus hrunning
  · rw [if_neg hopen] at hrunning
    refine hopen ?_
    rw [JobAttempt.inFlight, decide_eq_true_eq]
    exact ⟨h a (mem_inFlight.mpr ⟨ha, hrunning⟩), hrunning⟩

-- AttemptRepository.finish closes one row at most.
theorem Audited.finishedRows_le (h : e.Audited) (n : Int) : e.finishedRows n ≤ 1 := by
  have hlen : e.inFlight.length ≤ 1 := by
    by_cases hrunning : e.job.status = .running
    · exact (h.running.mp hrunning).le
    · rw [h.idle hrunning]
      exact Nat.zero_le 1
  refine le_trans ?_ hlen
  rw [inFlight, ← List.countP_eq_length_filter]
  refine List.countP_mono_left fun a _ hopen => ?_
  rw [JobAttempt.inFlight, decide_eq_true_eq] at hopen
  exact decide_eq_true hopen.2

end JobEntry

-- The runs in which no finalizer's UPDATE matches a row that has been claimed again, or released,
-- since: the row counts as many attempts as the snapshot.
def auditedCondition : Conditions :=
  { Conditions.none with finalize := fun _ _ job e => job.attemptCount = e.job.attemptCount }

theorem Outcome.status_ne_running (o : Outcome) : o.status ≠ .running := by
  cases o <;> exact fun h => nomatch h

theorem audited_of_applies {op : JobOp} {e e' : JobEntry} (h : op.Applies e e') (ha : e.Audited)
    (hcount : ∀ claim tx job workerId o now, op = .finish claim tx job workerId o now →
      job.attemptCount = e.job.attemptCount) : e'.Audited := by
  cases h with
  | claim tx workerId leaseSeconds now pass e hpending hready =>
      have hidle := ha.idle (by rw [hpending]; exact fun h => nomatch h)
      obtain ⟨a, hopen, hnumber, hworker⟩ := JobEntry.inFlight_startAttempt
        (e := e.claim tx workerId leaseSeconds now pass) workerId (e.job.attemptCount + 1) now hidle
      exact .of_running rfl hopen hnumber hworker
  | extend workerId leaseSeconds now e hlocked hrunning => exact ha.congr rfl rfl rfl rfl
  | finish claim tx job workerId o now e hrunning hlocked =>
      have hnumber := hcount claim tx job workerId o now rfl
      have hclosed := JobEntry.inFlight_finishAttempt
        (e := e.amend (o.update workerId now).set (.finished claim tx o.how)) o.error now
        o.status_ne_running fun a hopen => (ha.current a hopen).1.trans hnumber.symm
      exact .of_idle (o.update_status_ne_running workerId now e.job) hclosed
  | reclaim rng now decision e hrunning hdecision =>
      have hlost : AttemptStatus.lost ≠ .running := fun h => nomatch h
      have hclosed := JobEntry.inFlight_finishAttempt
        (some (leaseExpiredError e.job.lockedBy)) now hlost fun a hopen => (ha.current a hopen).1
      refine .of_idle ?_ hclosed
      obtain ⟨retry, delay⟩ := decision
      cases retry <;> exact fun h => nomatch h
  | cancel ownerId now e howner hpending =>
      exact .of_idle (fun h => nomatch h) (ha.idle (by rw [hpending]; exact fun h => nomatch h))
  | requeue ownerId now e howner hended =>
      refine .of_idle (fun h => nomatch h) (ha.idle ?_)
      rcases hended with h | h <;> rw [h] <;> exact fun h => nomatch h
  | summarize text e => exact ha.congr rfl rfl rfl rfl

theorem audited_of_created {c : Call} {t : TxId} {id : JobId} {e : JobEntry}
    (h : Created c t m id e) : e.Audited := by
  refine .of_idle ?_ ?_
  · rw [h.pending]
    exact fun h => nomatch h
  · rw [JobEntry.inFlight, h.attempts, List.filter_nil]

theorem audited_of_run (hm : Initial m) (h : Run auditedCondition m s) :
    ∀ id e, committedJob s.mem id = some e → e.Audited := by
  refine h.entries hm (R := fun _ e => e.Audited) (fun _ _ _ _ _ hnew => audited_of_created hnew) ?_
  rintro c t m op id e e' - - ⟨hperf, happ, hside⟩ ha
  refine audited_of_applies happ ha ?_
  rintro claim tx job workerId o now rfl
  cases hperf <;> exact hside.2.2 _ rfl

-- A row of job_attempts that has reached a terminal status.
def JobEntry.Closed (i : Nat) (a : JobAttempt) (e : JobEntry) : Prop :=
  e.attempts[i]? = some a ∧ a.status ≠ .running

theorem JobEntry.Closed.finishAttempt {i : Nat} {a : JobAttempt} {e : JobEntry} (h : e.Closed i a)
    (n : Int) (status : AttemptStatus) (error : Option String) (now : Time) :
    (e.finishAttempt n status error now).Closed i a := by
  obtain ⟨hrow, hclosed⟩ := h
  have hopen : ¬ a.inFlight n = true := by
    rw [JobAttempt.inFlight, decide_eq_true_eq]
    exact fun h => hclosed h.2
  refine ⟨?_, hclosed⟩
  rw [JobEntry.finishAttempt, List.getElem?_map, hrow, Option.map_some, if_neg hopen]

theorem JobEntry.Closed.startAttempt {i : Nat} {a : JobAttempt} {e : JobEntry} (h : e.Closed i a)
    (workerId : WorkerId) (n : Int) (now : Time) : (e.startAttempt workerId n now).Closed i a :=
  ⟨List.getElem?_append_left (List.getElem?_eq_some_iff.mp h.1).1 ▸ h.1, h.2⟩

-- No operation changes a row that is closed.
theorem closed_of_applies {op : JobOp} {e e' : JobEntry} (h : op.Applies e e') {i : Nat}
    {a : JobAttempt} (hclosed : e.Closed i a) : e'.Closed i a := by
  cases h with
  | claim tx workerId leaseSeconds now pass e hpending hready =>
      exact JobEntry.Closed.startAttempt (e := e.claim tx workerId leaseSeconds now pass) hclosed
        workerId _ now
  | finish claim tx job workerId o now e hrunning hlocked =>
      exact JobEntry.Closed.finishAttempt
        (e := e.amend (o.update workerId now).set (.finished claim tx o.how)) hclosed _ _ _ now
  | reclaim rng now decision e hrunning hdecision => exact hclosed.finishAttempt _ _ _ now
  | _ => exact hclosed

theorem lasting_closed {t : TxId} (i : Nat) (a : JobAttempt) :
    Lasting cond t (JobEntry.Closed i a) :=
  fun _ _ _ _ _ _ _ _ heff h => closed_of_applies heff.applies h

-- In a run that meets the condition the attempts of every job agree with its row, so no finish
-- closes two of them. A closed row stays as it is in any case.
theorem audit_trail (hm : Initial m) (h : Run auditedCondition m s) :
    (∀ id e, committedJob s.mem id = some e → e.Audited ∧ ∀ n, e.finishedRows n ≤ 1) ∧
    ∀ s', RunOn auditedCondition s s' → ∀ id e i a, committedJob s.mem id = some e →
      e.Closed i a → ∃ e', committedJob s'.mem id = some e' ∧ e'.Closed i a :=
  ⟨fun id e he => ⟨audited_of_run hm h id e he, (audited_of_run hm h id e he).finishedRows_le⟩,
    fun _ hrun _ _ _ _ he hclosed =>
      Run.lasting hm h hrun (fun _ => lasting_closed _ _) he hclosed⟩

-- Worker 5 completes the job it has claimed.
def completedEvents : List Event :=
  claimedEvents ++ whole 3 (.finalize 2 (exampleJob 5 1 0) 5 (.completeSuccess none)) 5

def auditedChecks : Checks :=
  { Checks.none with finalize := fun _ _ job e => job.attemptCount = e.job.attemptCount }

theorem auditedChecks_covers : auditedChecks.Covers auditedCondition where
  cap _ _ h := nomatch h
  fixed _ := trivial
  finalize _ _ job e h := of_decide_eq_true (p := job.attemptCount = e.job.attemptCount) h
  summary _ _ _ _ := trivial
  gated h := h.elim
  exclusive _ _ h := h.elim

theorem audit_trail_completed :
    (committedJob (auditedChecks.stateAfter completedEvents).mem 7).map
        (fun e => (e.job.status, e.attempts.map JobAttempt.status)) =
      some (.succeeded, [.succeeded]) ∧
    ∀ id e, committedJob (auditedChecks.stateAfter completedEvents).mem id = some e →
      e.Audited ∧ ∀ n, e.finishedRows n ≤ 1 :=
  ⟨by decide +kernel, (audit_trail exampleDb_initial
    (auditedChecks.run_stateAfter completedEvents auditedChecks_covers)).1⟩

-- The first execution of worker 5 has completed the job under its second claim.
def tornEvents : List Event := staleEvents ++ [.run 5]

theorem completed_under_running_attempt : ¬ ∀ m s, Initial m → system.Reachable m s →
    ∀ id e, committedJob s.mem id = some e → e.Audited := by
  intro h
  have hafter : (committedJob (stateAfter tornEvents).mem 7).any (fun e =>
      decide (e.job.status = .succeeded) && decide (e.inFlight.length = 1)) = true := by
    decide +kernel
  obtain ⟨e, he, hrow⟩ := (Option.any_eq_true _ _).mp hafter
  rw [Bool.and_eq_true, decide_eq_true_eq, decide_eq_true_eq] at hrow
  have haudited := h exampleDb _ exampleDb_initial (reachable_stateAfter tornEvents) 7 e he
  have hstatus := haudited.running.mpr hrow.2
  rw [hrow.1] at hstatus
  cases hstatus

end Chronos
