import Chronos.Refinement.Statements

namespace Chronos

open Txn (TxId Stable Triple stmt)

variable {cond : Conditions} {c : Call} {t : TxId}

-- A call that changes no job.
theorem triple_exitUnlocked :
    Triple (spec cond) c t (Unlocked t) (stmt .rollback) fun _ => Unlocked t :=
  triple_rollback stable_unlocked stable_unlocked fun m _ _ => unlocked_rollback m

-- The way out of any transaction.
theorem triple_leave {P : Db → Prop} (hst : Stable (spec cond) t P) :
    Triple (spec cond) c t P (stmt .rollback) fun _ => Unlocked t :=
  triple_rollback hst stable_unlocked fun m _ _ => unlocked_rollback m

theorem triple_commitNoJobs :
    Triple (spec cond) c t (NoJobs t) (stmt .commit) fun _ => Unlocked t :=
  triple_commit stable_noJobs stable_unlocked (fun _ _ h id e' hp => absurd hp (h id e'))
    fun m _ _ => unlocked_commit m

theorem aside_worker (id : WorkerId) : Aside (.worker id) :=
  ⟨fun _ => by simp, fun _ => by simp, fun _ => by simp⟩

theorem triple_updateWorker {id : WorkerId} {guard : Worker → Bool} {set : Worker → Worker}
    {P : Db → Prop} (hst : Stable (spec cond) t P)
    (hown : ∀ m (w : Worker), P m → P (m.own t (Key.worker id) w)) :
    Triple (spec cond) c t P (updateWorker id guard set) fun _ => P :=
  triple_updateAside (aside_worker id) hst hown

theorem noJobs_own_worker {id : WorkerId} (m : Db) (w : Worker) (h : NoJobs t m) :
    NoJobs t (m.own t (Key.worker id) w) := h.own (aside_worker id).1

theorem triple_registerWorker (workerId : WorkerId) (name : String) (concurrency : Int) :
    Triple (spec cond) c t (NoJobs t)
      (ExecutionService.registerWorker workerId name concurrency) fun _ => Unlocked t := by
  have hsound := spec_sound cond
  refine .bind hsound (triple_begin stable_noJobs) fun now => ?_
  refine .bind hsound (R := fun _ => NoJobs t) (triple_insert stable_noJobs (fun _ => stable_noJobs)
    (fun m _ h _ _ _ => h) fun m _ h _ _ _ _ => ⟨?_, ?_⟩) fun _ => ?_
  · obtain ⟨hjob, hqueue, hproject⟩ := aside_worker workerId
    exact .own_other hjob hqueue hproject
  · exact h.insert _ (aside_worker workerId).1
  · exact .bind hsound triple_commitNoJobs fun _ => triple_exitUnlocked

theorem triple_setWorkerStatus (workerId : WorkerId) (status : WorkerStatus) (stopped : Bool) :
    Triple (spec cond) c t (NoJobs t)
      (ExecutionService.setWorkerStatus workerId status stopped) fun _ => Unlocked t := by
  have hsound := spec_sound cond
  refine .bind hsound (triple_begin stable_noJobs) fun now => ?_
  refine .bind hsound (triple_updateWorker stable_noJobs noJobs_own_worker) fun _ => ?_
  exact .bind hsound triple_commitNoJobs fun _ => triple_exitUnlocked

section Heartbeat

variable {workerId : WorkerId} {leaseSeconds : ℚ} {now : Time}

-- The rows a heartbeat has locked: leases it has extended, and rows that were no longer leased to
-- its worker.
def Extended (workerId : WorkerId) (leaseSeconds : ℚ) (now : Time) (_ : JobId)
    (base : Option JobEntry) (e' : JobEntry) : Prop :=
  base = some e' ∨ ∃ e, base = some e ∧ (JobOp.extend workerId leaseSeconds now).Applies e e'

-- The heartbeat has the row of one more job.
theorem extended_own {id : JobId} {e : JobEntry} {m : Db}
    (h : Staged t (Extended workerId leaseSeconds now) m)
    (he : Extended workerId leaseSeconds now id (committedJob m id) e) :
    Staged t (Extended workerId leaseSeconds now) (m.own t (.job id) e) := by
  intro id' e' hp
  rw [committedJob, Txn.Store.own_committed]
  by_cases heq : id' = id
  · subst heq
    rw [pendingJob, Txn.Store.own_cell_self, Option.some.injEq, Prod.mk.injEq] at hp
    exact hp.2 ▸ he
  · rw [pendingJob, Txn.Store.own_cell_ne t _ _ m (by simpa using heq)] at hp
    exact h id' e' hp

theorem triple_extendLeases (ids : List JobId) :
    Triple (spec cond) c t (Staged t (Extended workerId leaseSeconds now))
      (ExecutionService.updateJobs (JobRepository.extendLeases workerId leaseSeconds now) ids)
      fun _ => Staged t (Extended workerId leaseSeconds now) := by
  have hst : Stable (spec cond) t (Staged t (Extended workerId leaseSeconds now)) :=
    stable_staged _
  induction ids with
  | nil => exact .pure hst fun _ h => h
  | cons id ids ih =>
      refine .bind (spec_sound cond) (triple_recheckJob (R := fun _ =>
        Staged t (Extended workerId leaseSeconds now)) hst (fun _ => hst) (fun m _ h => h) ?_ ?_)
        fun r => .bind (spec_sound cond) ih fun n => .pure hst fun _ h => h
      · intro m e hat hstaged hseen _
        refine extended_own hstaged ?_
        rcases Txn.Cell.seen_cases hseen with hpend | hcommitted
        · exact hstaged id e hpend
        · exact .inl hcommitted
      · intro m e hat hstaged hseen hguard hperm
        simp only [JobRepository.extendLeases, decide_eq_true_eq] at hguard
        refine ⟨.updated e hseen ⟨rfl, rfl, rfl, rfl, rfl⟩ fun h => h, extended_own hstaged (.inr ?_)⟩
        -- Extending a lease that this heartbeat has extended is the same as extending it once.
        rcases Txn.Cell.seen_cases hseen with hpend | hcommitted
        · rcases hstaged id e hpend with hbase | ⟨b, hb, happ⟩
          · exact ⟨e, hbase, .extend workerId leaseSeconds now e hguard.1 hguard.2⟩
          · cases happ with
            | extend _ _ _ _ hlocked hrunning =>
                exact ⟨b, hb, .extend workerId leaseSeconds now b hlocked hrunning⟩
        · exact ⟨e, hcommitted, .extend workerId leaseSeconds now e hguard.1 hguard.2⟩

theorem triple_heartbeat (rank : JobId → Nat) :
    Triple (spec cond) (.heartbeat workerId leaseSeconds rank) t (NoJobs t)
      (ExecutionService.heartbeat workerId leaseSeconds rank) fun _ => Unlocked t := by
  have hsound := spec_sound cond
  refine .bind hsound (triple_begin stable_noJobs) fun now => ?_
  refine .bind hsound (triple_updateWorker stable_noJobs noJobs_own_worker) fun _ => ?_
  refine .bind hsound (triple_updateWorker stable_noJobs noJobs_own_worker) fun _ => ?_
  refine .bind hsound (triple_select (R := fun _ => NoJobs t) stable_noJobs (fun _ => stable_noJobs)
    fun m _ h => h) fun ids => ?_
  have hst : Stable (spec cond) t (Staged t (Extended workerId leaseSeconds now)) :=
    stable_staged _
  refine .bind hsound ((triple_extendLeases ids).pre fun m _ _ _ _ h id e hp => absurd hp (h id e))
    fun n => ?_
  refine .bind hsound (triple_commit hst stable_unlocked ?_ fun m _ _ => unlocked_commit m)
    fun _ => .bind hsound triple_exitUnlocked fun _ => .pure stable_unlocked fun _ h => h
  intro m hat hstaged id e' hp
  rcases hstaged id e' hp with hbase | ⟨e, he, happ⟩
  · exact .inl hbase
  · exact .inr (.inl ⟨e, _, he, .extend workerId leaseSeconds rank now, happ, trivial⟩)

end Heartbeat

section Transition

variable {ownerId : UserId} {jobId : JobId}

-- A request of the owner: whenever its UPDATE matches, it performs its operation.
theorem triple_transition {u : Time → GuardedUpdate} {event : JobEvent} {conflict : String}
    (op : Time → JobOp) (hperf : ∀ now, Performs t c (op now))
    (hside : ∀ now m e, Side cond c t m e (op now))
    (happ : ∀ now (e : JobEntry), (u now).guard e.job = true →
      (op now).Applies e (e.amend (u now).set event))
    (hrun : ∀ now (e : JobEntry), (e.amend (u now).set event).job.status ≠ .running) :
    Triple (spec cond) c t (Unlocked t) (JobService.transition ownerId jobId u event conflict)
      fun _ => Unlocked t := by
  have hsound := spec_sound cond
  refine .bind hsound (triple_begin stable_unlocked) fun now => ?_
  refine .bind hsound ((triple_updateOne (P := fun _ => True) (N := fun _ => True)
    (D := (op now).Applies) (Stable.const True) (Stable.const True) (fun _ _ _ _ => trivial)
    (fun m e _ _ _ hg _ => happ now e hg) (fun e hg => (happ now e hg).sameRow)
    fun e _ h => absurd h (hrun now e)).pre fun m _ _ _ _ h => ⟨h, trivial⟩) fun r => ?_
  cases r with
  | none =>
      refine .bind hsound (triple_select (R := fun _ => Unlocked t)
        (stable_unlocked.and (Stable.const True)) (fun _ => stable_unlocked) fun m _ h => h.1)
        fun job => ?_
      refine .bind hsound triple_exitUnlocked fun _ => ?_
      cases job <;> exact .pure stable_unlocked fun _ h => h
  | some e =>
      refine .bind hsound (triple_commitOne (R := fun _ => True) lasting_true ?_
        fun _ _ _ => trivial) fun _ => ?_
      · intro m e e' hat he h
        exact ⟨op now, hperf now, h, hside now m e⟩
      · refine .bind hsound (triple_exitUnlocked.pre fun m _ _ _ _ h => h.1) fun _ => ?_
        exact .pure stable_unlocked fun _ h => h

theorem triple_cancel : Triple (spec cond) (.cancel ownerId jobId) t (Unlocked t)
    (JobService.cancel ownerId jobId) fun _ => Unlocked t := by
  refine triple_transition (fun now => .cancel ownerId now) (fun now => .cancel ownerId jobId now)
    (fun _ _ _ => trivial) (fun now e hg => ?_) fun now e h => nomatch h
  simp only [JobRepository.cancel, decide_eq_true_eq] at hg
  exact .cancel ownerId now e hg.1 hg.2

theorem triple_requeue : Triple (spec cond) (.requeue ownerId jobId) t (Unlocked t)
    (JobService.requeue ownerId jobId) fun _ => Unlocked t := by
  refine triple_transition (fun now => .requeue ownerId now) (fun now => .requeue ownerId jobId now)
    (fun _ _ _ => trivial) (fun now e hg => ?_) fun now e h => nomatch h
  simp only [JobRepository.requeue, decide_eq_true_eq] at hg
  exact .requeue ownerId now e hg.1 hg.2

end Transition

end Chronos
