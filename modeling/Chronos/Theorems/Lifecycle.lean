import Chronos.Refinement.Checks

namespace Chronos

open Txn (TxId Reaches)

variable {cond : Conditions} {m : Db} {s s' : State}

-- The status of a job changes along the transitions listed on JobStatus; a new job is PENDING.
def Transition (s s' : State) (id : JobId) : Prop :=
  (∀ e, committedJob s.mem id = some e → ∃ e', committedJob s'.mem id = some e' ∧
    (e'.job.status = e.job.status ∨ e.job.status.allows e'.job.status = true)) ∧
  ∀ e', committedJob s.mem id = none → committedJob s'.mem id = some e' → e'.job.status = .pending

theorem transition_of_step (hm : Initial m) (h : Run cond m s) {ev : Event}
    (hstep : system.step s ev = some s') (hok : (spec cond).Permitted s ev s') (id : JobId) :
    Transition s s' id := by
  cases Run.published hm h hstep hok id with
  | same heq =>
      refine ⟨fun e he => ⟨e, heq.trans he, .inl rfl⟩, fun e' hnone he' => ?_⟩
      rw [heq, hnone] at he'
      cases he'
  | changed t c p op e e' hev ht he he' heff =>
      refine ⟨fun d hd => ⟨e', he', ?_⟩, fun d hnone => ?_⟩
      · obtain rfl : e = d := Option.some.inj (he.symm.trans hd)
        exact heff.applies.status_allowed
      · rw [he] at hnone
        cases hnone
  | created t c p e' hev ht hnone he' hnew =>
      refine ⟨fun d hd => ?_, fun d _ hd => ?_⟩
      · rw [hnone] at hd
        cases hd
      · obtain rfl : e' = d := Option.some.inj (he'.symm.trans hd)
        exact hnew.pending

-- SUCCEEDED is absorbing, from any state of a run on.
theorem succeeded_absorbing (hm : Initial m) (h : system.Reachable m s)
    (hrun : Reaches system.step (fun _ _ _ => True) s s') {id : JobId} {e : JobEntry}
    (he : committedJob s.mem id = some e) (hstatus : e.job.status = .succeeded) :
    ∃ e', committedJob s'.mem id = some e' ∧ e'.job.status = .succeeded := by
  refine hrun.invariant (P := fun s' => ∃ e', committedJob s'.mem id = some e' ∧
    e'.job.status = .succeeded) ⟨e, he, hstatus⟩ ?_
  intro s₁ ev s₂ hs ⟨e₁, he₁, hstatus₁⟩ hstep _
  have hreach : Run .none m s₁ := run_of_reachable (h.trans hs)
  obtain ⟨e₂, he₂, hsame | hallow⟩ :=
    (transition_of_step hm hreach hstep (permitted_none s₁ ev s₂) id).1 e₁ he₁
  · exact ⟨e₂, he₂, hsame.trans hstatus₁⟩
  · rw [hstatus₁] at hallow
    cases hnext : e₂.job.status <;> rw [hnext] at hallow <;> cases hallow

theorem finalizer_not_raised (hm : Initial m) (h : system.Reachable m s) {t claim : TxId}
    {job : Job} {workerId : WorkerId} {f : Finalizer} {err : PyError} :
    s.thread t ≠ some ⟨.finalize claim job workerId f, some (.pure (.raised err))⟩ :=
  fun ht => (Run.inv hm (run_of_reachable h)).safe t _ _ ht s.mem .refl

theorem reaper_not_raised (hm : Initial m) (h : system.Reachable m s) {t : TxId} {n : Int}
    {rank : JobId → Nat} {rng : JobId → Draw} {err : PyError} :
    s.thread t ≠ some ⟨.reapOnce n rank rng, some (.pure (.raised err))⟩ :=
  fun ht => (Run.inv hm (run_of_reachable h)).safe t _ _ ht s.mem .refl

-- The representation invariant of a job row and its lifecycle, over every run of the system. No
-- finalizer and no sweep raises, so none of them meets the ValueError of computeBackoffSeconds.
theorem job_lifecycle (hm : Initial m) (h : system.Reachable m s) :
    (∀ id e, committedJob s.mem id = some e → e.job.RowOk) ∧
    (∀ t claim job workerId f err,
      s.thread t ≠ some ⟨.finalize claim job workerId f, some (.pure (.raised err))⟩) ∧
    (∀ t n rank rng err, s.thread t ≠ some ⟨.reapOnce n rank rng, some (.pure (.raised err))⟩) ∧
    (∀ ev s', system.step s ev = some s' → ∀ id, Transition s s' id) ∧
    ∀ s', Reaches system.step (fun _ _ _ => True) s s' → ∀ id e, committedJob s.mem id = some e →
      e.job.status = .succeeded →
        ∃ e', committedJob s'.mem id = some e' ∧ e'.job.status = .succeeded := by
  have hrun := run_of_reachable h
  refine ⟨fun id e he => ((Run.inv hm hrun).inv.ok id e he).row, ?_, ?_, ?_, ?_⟩
  · exact fun t claim job workerId f err => finalizer_not_raised hm h
  · exact fun t n rank rng err => reaper_not_raised hm h
  · exact fun ev s' hstep id => transition_of_step hm hrun hstep (permitted_none s ev s') id
  · exact fun s' hs id e he hstatus => succeeded_absorbing hm h hs he hstatus

theorem job_lifecycle_claimed :
    (committedJob (stateAfter claimedEvents).mem 7).map (fun e => e.job.status) = some .running ∧
      ∀ id e, committedJob (stateAfter claimedEvents).mem id = some e → e.job.RowOk :=
  ⟨by decide +kernel, (job_lifecycle exampleDb_initial (reachable_stateAfter claimedEvents)).1⟩

end Chronos
