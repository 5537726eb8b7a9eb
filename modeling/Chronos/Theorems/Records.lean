import Chronos.Refinement.Checks

namespace Chronos

open Txn (TxId Reaches)

variable {m : Db} {s s' : State} {op : JobOp} {e e' e'' : JobEntry}

-- What the request fixed of a job: the row without the columns that the scheduler writes.
def Job.request (job : Job) : Job :=
  { job with
    status := .pending, runAt := 0, attemptCount := 0, lockedBy := none, leaseExpiresAt := none
    lastError := none, aiSummary := none, result := none, startedAt := none, finishedAt := none }

-- The row without its summary, which is all that still comes after the end.
def Job.outcome (job : Job) : Job := { job with aiSummary := none }

-- A row of job_attempts later on: as it was, or closed since.
structure JobAttempt.Proceeds (a a' : JobAttempt) : Prop where
  workerId : a'.workerId = a.workerId
  attemptNumber : a'.attemptNumber = a.attemptNumber
  startedAt : a'.startedAt = a.startedAt
  closed : a' = a ∨ a.status = .running ∧ a'.status ≠ .running ∧ a'.finishedAt.isSome = true

theorem JobAttempt.Proceeds.refl (a : JobAttempt) : a.Proceeds a := ⟨rfl, rfl, rfl, .inl rfl⟩

theorem JobAttempt.Proceeds.trans {a a' a'' : JobAttempt} (h : a.Proceeds a')
    (h' : a'.Proceeds a'') : a.Proceeds a'' where
  workerId := h'.workerId.trans h.workerId
  attemptNumber := h'.attemptNumber.trans h.attemptNumber
  startedAt := h'.startedAt.trans h.startedAt
  closed := by
    rcases h'.closed with rfl | ⟨hrunning, hclosed⟩
    · exact h.closed
    · rcases h.closed with rfl | ⟨-, hended, -⟩
      · exact .inr ⟨hrunning, hclosed⟩
      · exact absurd hrunning hended

namespace JobEntry

-- Every attempt is still there, in its place.
def AttemptsProceed (e e' : JobEntry) : Prop :=
  ∀ (i : Nat) (a : JobAttempt), e.attempts[i]? = some a →
    ∃ a', e'.attempts[i]? = some a' ∧ a.Proceeds a'

theorem attemptsProceed_of_eq (h : e'.attempts = e.attempts) : e.AttemptsProceed e' :=
  fun _ a ha => ⟨a, h ▸ ha, .refl a⟩

theorem attemptsProceed_startAttempt (workerId : WorkerId) (n : Int) (now : Time) :
    e.AttemptsProceed (e.startAttempt workerId n now) := by
  intro i a ha
  exact ⟨a, List.getElem?_append_left (List.getElem?_eq_some_iff.mp ha).1 ▸ ha, .refl a⟩

theorem attemptsProceed_finishAttempt (n : Int) {status : AttemptStatus} (error : Option String)
    (now : Time) (hstatus : status ≠ .running) :
    e.AttemptsProceed (e.finishAttempt n status error now) := by
  intro i a ha
  refine ⟨_, by rw [JobEntry.finishAttempt, List.getElem?_map, ha, Option.map_some], ?_⟩
  split
  · rename_i hopen
    rw [JobAttempt.inFlight, decide_eq_true_eq] at hopen
    exact ⟨rfl, rfl, rfl, .inr ⟨hopen.2, hstatus, rfl⟩⟩
  · exact .refl a

-- What may become of the record of a job.
structure GrowsTo (e e' : JobEntry) : Prop where
  request : e'.job.request = e.job.request
  dependsOn : e'.dependsOn = e.dependsOn
  log : e.log <:+ e'.log
  attempts : e.AttemptsProceed e'
  final : e.job.status = .succeeded → e'.job.outcome = e.job.outcome

theorem GrowsTo.refl (e : JobEntry) : e.GrowsTo e :=
  ⟨rfl, rfl, List.suffix_rfl, attemptsProceed_of_eq rfl, fun _ => rfl⟩

theorem GrowsTo.trans (h : e.GrowsTo e') (h' : e'.GrowsTo e'') : e.GrowsTo e'' where
  request := h'.request.trans h.request
  dependsOn := h'.dependsOn.trans h.dependsOn
  log := h.log.trans h'.log
  attempts i a ha := by
    obtain ⟨a', ha', hproceeds⟩ := h.attempts i a ha
    obtain ⟨a'', ha'', hproceeds'⟩ := h'.attempts i a' ha'
    exact ⟨a'', ha'', hproceeds.trans hproceeds'⟩
  final hstatus := by
    have hsame := h.final hstatus
    have hstill : e'.job.status = .succeeded := (congrArg Job.status hsame).trans hstatus
    exact (h'.final hstill).trans hsame

end JobEntry

theorem Outcome.ended (o : Outcome) : o.status ≠ .running := by
  cases o <;> simp [Outcome.status]

-- What no operation writes.
theorem request_of_applies (h : op.Applies e e') : e'.job.request = e.job.request := by
  cases h with
  | finish claim tx job workerId o now e hrunning hlocked =>
      cases o with
      | failure error decision =>
          obtain ⟨retry, delay⟩ := decision
          cases retry <;> rfl
      | _ => rfl
  | reclaim rng now decision e hrunning hdecision =>
      obtain ⟨retry, delay⟩ := decision
      cases retry <;> rfl
  | _ => rfl

theorem attempts_of_applies (h : op.Applies e e') : e.AttemptsProceed e' := by
  cases h with
  | claim tx workerId leaseSeconds now pass e hpending hready =>
      exact JobEntry.attemptsProceed_startAttempt workerId _ now
  | finish claim tx job workerId o now e hrunning hlocked =>
      exact JobEntry.attemptsProceed_finishAttempt _ _ now o.ended
  | reclaim rng now decision e hrunning hdecision =>
      exact JobEntry.attemptsProceed_finishAttempt _ _ now (by simp)
  | _ => exact JobEntry.attemptsProceed_of_eq rfl

-- A job that has succeeded is summarized at most.
theorem outcome_of_applies (h : op.Applies e e') (hstatus : e.job.status = .succeeded) :
    e'.job.outcome = e.job.outcome := by
  cases h with
  | claim tx workerId leaseSeconds now pass e hpending hready => simp [hpending] at hstatus
  | extend workerId leaseSeconds now e hlocked hrunning => simp [hrunning] at hstatus
  | finish claim tx job workerId o now e hrunning hlocked => simp [hrunning] at hstatus
  | reclaim rng now decision e hrunning hdecision => simp [hrunning] at hstatus
  | cancel ownerId now e howner hpending => simp [hpending] at hstatus
  | requeue ownerId now e howner hended => simp [hstatus] at hended
  | summarize text e => rfl

theorem growsTo_of_applies (h : op.Applies e e') : e.GrowsTo e' where
  request := request_of_applies h
  dependsOn := h.deps
  log := h.log ▸ List.suffix_append _ _
  attempts := attempts_of_applies h
  final := outcome_of_applies h

-- Whatever happens, the record of a job only grows: the request stays, attempts and history are
-- added to, an attempt is closed once, and a job that has succeeded keeps its outcome.
theorem records_only_grow (hm : Initial m) (h : system.Reachable m s)
    (hrun : Reaches system.step (fun _ _ _ => True) s s') {id : JobId}
    (he : committedJob s.mem id = some e) :
    ∃ e', committedJob s'.mem id = some e' ∧ e.GrowsTo e' := by
  have hon : RunOn .none s s' := hrun.mono fun s₁ ev s₂ _ => permitted_none s₁ ev s₂
  refine Run.lasting hm (run_of_reachable h) hon (fun _ => ?_) he (.refl e)
  exact fun _ _ _ _ _ _ _ _ heff hgrows => hgrows.trans (growsTo_of_applies heff.applies)

def reclaimedAfter : State :=
  (Txn.runAll system.step (fun _ _ _ => true) (stateAfter claimedEvents)
    ([.tick 31] ++ whole 3 (.reapOnce 60 id fun _ => Draw.zero) 9)).getD (stateAfter claimedEvents)

theorem records_only_grow_reclaimed :
    (committedJob reclaimedAfter.mem 7).map (fun e => e.attempts.map JobAttempt.status) =
      some [.lost] ∧
    ∃ e e', committedJob (stateAfter claimedEvents).mem 7 = some e ∧
      committedJob reclaimedAfter.mem 7 = some e' ∧ e.GrowsTo e' := by
  have hrun : Reaches system.step (fun _ _ _ => True) (stateAfter claimedEvents) reclaimedAfter :=
    (Reaches.getD_runAll (fun _ _ _ => true) _).mono fun _ _ _ _ => trivial
  have hsome : (committedJob (stateAfter claimedEvents).mem 7).isSome = true := by decide +kernel
  obtain ⟨e, he⟩ := Option.isSome_iff_exists.mp hsome
  obtain ⟨e', he', hgrows⟩ :=
    records_only_grow exampleDb_initial (reachable_stateAfter claimedEvents) hrun he
  exact ⟨by decide +kernel, e, e', he, he', hgrows⟩

end Chronos
