import Chronos.Refinement.Checks

namespace Chronos

variable {cond : Conditions} {m : Db} {s s' : State}

-- A job that has ever been claimed has all its dependencies SUCCEEDED.
def Gated (m : Db) : Prop :=
  ∀ id e, committedJob m id = some e → e.job.status = .running ∨ e.attempts ≠ [] → DepsMet m e

-- The runs in which the capped pass, which does not look at dependencies, locks no PENDING job
-- with an unmet one.
def gatedCondition : Conditions := { Conditions.none with gated := True }

theorem depsMet_of_step (hm : Initial m) (h : Run cond m s) {ev : Event}
    (hstep : system.step s ev = some s') (hok : (spec cond).Permitted s ev s') {e : JobEntry}
    (hmet : DepsMet s.mem e) : DepsMet s'.mem e := by
  intro d hd
  obtain ⟨dep, hdep, hstatus⟩ := hmet d hd
  cases Run.published hm h hstep hok d with
  | same heq => exact ⟨dep, heq.trans hdep, hstatus⟩
  | changed t c p op e e' hev ht he he' heff =>
      obtain rfl : e = dep := Option.some.inj (he.symm.trans hdep)
      exact ⟨e', he', heff.applies.succeeded hstatus⟩
  | created t c p e' hev ht hnone he' hnew =>
      rw [hdep] at hnone
      cases hnone

theorem DepsMet.of_deps {m : Db} {e e' : JobEntry} (h : DepsMet m e)
    (hdeps : e'.dependsOn = e.dependsOn) : DepsMet m e' :=
  fun d hd => h d (hdeps ▸ hd)

-- An operation other than a claim does not admit a job.
theorem claimed_before {op : JobOp} {e e' : JobEntry} (happ : op.Applies e e')
    (hclaim : ∀ tx workerId leaseSeconds now pass, op ≠ .claim tx workerId leaseSeconds now pass)
    (h : e'.job.status = .running ∨ e'.attempts ≠ []) :
    e.job.status = .running ∨ e.attempts ≠ [] := by
  cases happ with
  | claim tx workerId leaseSeconds now pass e hpending hready =>
      exact absurd rfl (hclaim tx workerId leaseSeconds now pass)
  | extend workerId leaseSeconds now e hlocked hrunning => exact .inl hrunning
  | finish claim tx snapshot workerId o now e hrunning hlocked => exact .inl hrunning
  | reclaim rng now decision e hrunning hdecision => exact .inl hrunning
  | cancel ownerId now e howner hpending => exact h.imp (fun h => nomatch h) fun h => h
  | requeue ownerId now e howner hended => exact h.imp (fun h => nomatch h) fun h => h
  | summarize text e => exact h

theorem gated_of_run (hm : Initial m) (hgated : cond.gated) (h : Run cond m s) : Gated s.mem := by
  refine h.invariant (P := fun s => Gated s.mem) ?_ ?_
  · intro id e he
    rw [committedJob, Txn.Pool.init, hm.job id] at he
    cases he
  · intro s ev s' hs hR hstep hok id e' he' hclaimed
    refine depsMet_of_step hm hs hstep hok ?_
    cases Run.published hm hs hstep hok id with
    | same heq => exact hR id e' (heq.symm.trans he') hclaimed
    | changed t c p op e d hev ht he hd heff =>
        obtain rfl : d = e' := Option.some.inj (hd.symm.trans he')
        refine DepsMet.of_deps (e := e) ?_ heff.applies.deps
        obtain ⟨hperf, happ, hside⟩ := heff
        by_cases hclaim : ∃ tx w l now pass, op = .claim tx w l now pass
        · obtain ⟨tx, w, l, now, pass, rfl⟩ := hclaim
          exact hside.2 (.inr hgated)
        · refine hR id e he (claimed_before happ (fun tx w l now pass heq => ?_) hclaimed)
          exact hclaim ⟨tx, w, l, now, pass, heq⟩
    | created t c p d hev ht hnone hd hnew =>
        obtain rfl : d = e' := Option.some.inj (hd.symm.trans he')
        rw [hnew.pending, hnew.attempts] at hclaimed
        exact absurd hclaimed (by simp)

-- In a run whose capped passes never lock a job with an unmet dependency, no job is claimed before
-- its dependencies have succeeded.
theorem workflow_gating (hm : Initial m) (h : Run gatedCondition m s) : Gated s.mem :=
  gated_of_run hm trivial h

-- Job 17 waits for job 7 in a queue without a cap.
def workflowEvents : List Event :=
  createdEvents ++ whole 2 (.enqueue exampleUser (exampleBody none [7]) ⟨17, 80, 9⟩) 8 ++
  whole 3 (.claimJobs (exampleClaim 5)) 7 ++ whole 4 (.claimJobs (exampleClaim 6)) 5 ++
  whole 5 (.finalize 3 (exampleJob 5 1 0) 5 (.completeSuccess none)) 5 ++
  whole 6 (.claimJobs (exampleClaim 6)) 7

def gatedChecks : Checks := { Checks.none with gated := true }

theorem gatedChecks_covers : gatedChecks.Covers gatedCondition where
  cap _ _ h := nomatch h
  fixed _ := trivial
  finalize _ _ _ _ _ := trivial
  summary _ _ _ _ := trivial
  gated _ := rfl
  exclusive _ _ h := h.elim

theorem workflow_gating_uncapped :
    (committedJob (gatedChecks.stateAfter workflowEvents).mem 17).map
      (fun e => (e.job.status, e.dependsOn)) = some (.running, [7]) ∧
    Gated (gatedChecks.stateAfter workflowEvents).mem :=
  ⟨by decide +kernel,
    workflow_gating exampleDb_initial (gatedChecks.run_stateAfter workflowEvents gatedChecks_covers)⟩

-- The same jobs in a queue with room for two: job 17 is claimed while job 7 is RUNNING.
def cappedWorkflowEvents : List Event :=
  whole 1 (.createQueue exampleUser none
    { Queue.fresh 8 0 "default" with maxConcurrency := some 2 }) 5 ++
  whole 2 (.enqueue exampleUser (exampleBody none []) ⟨7, 80, 9⟩) 7 ++
  whole 3 (.enqueue exampleUser (exampleBody none [7]) ⟨17, 80, 9⟩) 8 ++
  whole 4 (.claimJobs (exampleClaim 5)) 11 ++ whole 5 (.claimJobs (exampleClaim 6)) 11

theorem capped_pass_not_gated :
    ¬ ∀ m s, Initial m → system.Reachable m s → Gated s.mem := by
  intro h
  have hgated := h exampleDb _ exampleDb_initial (reachable_stateAfter cappedWorkflowEvents)
  have h7 : (committedJob (stateAfter cappedWorkflowEvents).mem 7).map (fun e => e.job.status) =
      some .running := by decide +kernel
  have h17 : (committedJob (stateAfter cappedWorkflowEvents).mem 17).map
      (fun e => (e.job.status, e.dependsOn)) = some (.running, [7]) := by decide +kernel
  obtain ⟨e, he, heq⟩ := Option.map_eq_some_iff.mp h17
  obtain ⟨hrunning, hdeps⟩ := Prod.mk.inj heq
  obtain ⟨dep, hdep, hstatus⟩ := hgated 17 e he (.inl hrunning) 7 (by rw [hdeps]; exact .head _)
  rw [hdep, Option.map_some, hstatus] at h7
  cases h7

end Chronos
