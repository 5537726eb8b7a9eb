import Chronos.Refinement.Batch
import Chronos.Refinement.Requests

namespace Chronos

open Txn (TxId Stable Triple)

variable {cond : Conditions} {t : TxId} {offlineAfterSeconds : Int} {rank : JobId → Nat}
  {rng : JobId → Draw} {now : Time}

-- A job the sweep has done with.
def Reaped (rng : JobId → Draw) (now : Time) (p : JobEntry × JobEntry) : Prop :=
  (JobOp.reclaim (rng p.1.job.id) now).Applies p.1 p.2

-- A job the sweep has found to be expired.
def Expired (e : JobEntry) : Prop := e.Ok ∧ e.job.status = .running

def Swept (t : TxId) (rng : JobId → Draw) (now : Time) (m : Db) : Prop :=
  ∃ rows, Batch t rows m ∧ ∀ p ∈ rows, Reaped rng now p

theorem stable_swept : Stable (spec cond) t (Swept t rng now) :=
  Stable.exists fun rows => (stable_batch rows).and (Stable.const _)

theorem Swept.own {m : Db} {k : Key} {v : Row k} (hk : ∀ id, Key.job id ≠ k)
    (h : Swept t rng now m) : Swept t rng now (m.own t k v) := by
  obtain ⟨rows, hbatch, hreaped⟩ := h
  exact ⟨rows, hbatch.own_ne hk, hreaped⟩

-- What the sweep decides about a job it could never fail to decide about.
theorem triple_reapJobs (todo : List JobEntry) (done : List (JobEntry × JobEntry))
    (htodo : ∀ e ∈ todo, Expired e) (hdone : ∀ p ∈ done, Reaped rng now p) :
    Triple (spec cond) (.reapOnce offlineAfterSeconds rank rng) t
      (Batch t (todo.map untouched ++ done)) (ExecutionService.reapJobs rng now todo)
      fun r m => r = .ok () ∧ Swept t rng now m := by
  have hsound := spec_sound cond
  induction todo generalizing done with
  | nil => exact .pure (stable_batch _) fun m h => ⟨rfl, done, h, hdone⟩
  | cons e todo ih =>
      obtain ⟨hok, hrunning⟩ := htodo e List.mem_cons_self
      obtain ⟨decision, hd⟩ := decideFailure_ok (policyOf e.job) (rng e.job.id)
        (hok.row.claimed hrunning)
      let error := leaseExpiredError e.job.lockedBy
      have hclose : Triple (spec cond) (.reapOnce offlineAfterSeconds rank rng) t
          (Batch t ((e, e) :: (todo.map untouched ++ done)))
          (writeJob e.job.id (JobEntry.finishAttempt e.job.attemptCount .lost (some error) now))
          fun _ => Batch t ((e, e.finishAttempt e.job.attemptCount .lost (some error) now) ::
            (todo.map untouched ++ done)) :=
        triple_rewriteBatch ⟨rfl, rfl, rfl, rfl, rfl⟩ fun h => h
      have hreclaim : Triple (spec cond) (.reapOnce offlineAfterSeconds rank rng) t
          (Batch t ((e, e.finishAttempt e.job.attemptCount .lost (some error) now) ::
            (todo.map untouched ++ done)))
          (writeJob e.job.id
            (JobEntry.amend (reclaimValues error decision now) (.reclaimed decision.retry)))
          fun _ => Batch t ((e, JobOp.reclaimed decision now e) ::
            (todo.map untouched ++ done)) := by
        refine triple_rewriteBatch ?_ ?_
        · obtain ⟨retry, delay⟩ := decision
          cases retry <;> exact ⟨rfl, rfl, rfl, rfl, rfl⟩
        · obtain ⟨retry, delay⟩ := decision
          cases retry <;> exact fun h => nomatch h
      refine .bind hsound hclose fun _ => ?_
      rw [hd]
      refine .bind hsound hreclaim fun _ => ?_
      refine (ih (_ :: done) (fun d hmem => htodo d (List.mem_cons_of_mem _ hmem)) ?_).pre
        fun m _ _ _ _ h => h.perm List.perm_middle.symm
      intro p hp
      rcases List.mem_cons.mp hp with rfl | hp
      · exact .reclaim (rng e.job.id) now decision e hrunning hd
      · exact hdone p hp

theorem triple_markStaleOffline (ids : List WorkerId) :
    Triple (spec cond) (.reapOnce offlineAfterSeconds rank rng) t (Swept t rng now)
      (ExecutionService.markStaleOffline offlineAfterSeconds now ids)
      fun _ => Swept t rng now := by
  induction ids with
  | nil => exact .pure stable_swept fun m h => h
  | cons id ids ih =>
      exact .bind (spec_sound cond) (triple_recheckAside (aside_worker id) stable_swept
        fun m w h => h.own (aside_worker id).1) fun _ => ih

theorem aside_advisory (key : Nat) : Aside (.advisory key) :=
  ⟨fun _ => by simp, fun _ => by simp, fun _ => by simp⟩

theorem triple_reapOnce :
    Triple (spec cond) (.reapOnce offlineAfterSeconds rank rng) t (Unlocked t)
      (ExecutionService.reapOnce offlineAfterSeconds rank rng)
      fun r m => Unlocked t m ∧ ∃ n, r = .ok n := by
  have hsound := spec_sound cond
  refine .bind hsound (triple_begin stable_unlocked) fun now => ?_
  refine .bind hsound (triple_lock (R := fun _ => NoJobs t) stable_unlocked
    (fun _ => stable_noJobs) (fun m _ h => h.noJobs)
    (fun _ _ _ _ _ _ hg => nomatch hg) ?_) fun gotLock => ?_
  · intro m v hat h _ _ _ _
    obtain ⟨hjob, hqueue, hproject⟩ := aside_advisory ExecutionService.REAPER_ADVISORY_LOCK_KEY
    exact ⟨.own_other hjob hqueue hproject, h.noJobs.own hjob⟩
  · cases gotLock with
    | none =>
        refine .bind hsound (triple_leave stable_noJobs) fun _ => ?_
        exact .bind hsound triple_exitUnlocked fun _ =>
          .pure stable_unlocked fun m h => ⟨h, 0, rfl⟩
    | some _ =>
        refine .bind hsound (triple_select (R := fun ids m => ids.Nodup ∧ NoJobs t m) stable_noJobs
          (fun ids => (Stable.const _).and stable_noJobs) ?_) fun ids => ?_
        · intro m hat h
          refine ⟨?_, h⟩
          rw [ExecutionService.scanJobs, (List.perm_insertionSort _ _).nodup_iff]
          exact nodup_jobsWhere hat.wf.nodup _
        · refine Triple.assuming (fun m h => h.1) fun hids => ?_
          have hrows : LockRules cond (.reapOnce offlineAfterSeconds rank rng) t
              (fun e => JobRepository.expiredWhere now e.job) (fun _ _ => True)
              (fun e _ => Expired e) (fun _ => True) [] :=
            { stableI := fun _ => Stable.const _
              stableΦ := fun _ => Stable.const _
              stableJ := Stable.const _
              lock := fun m id e hat _ _ he _ _ hguard _ => by
                simp only [JobRepository.expiredWhere, decide_eq_true_eq] at hguard
                exact ⟨hat.inv.ok id e he, hguard.1⟩
              ownI := fun _ _ _ _ h => h
              ownΦ := fun _ _ _ _ h => h
              ownJ := fun _ _ _ h _ _ => h
              done := fun _ hp => absurd hp List.not_mem_nil }
          refine .bind hsound ((triple_lockRows hrows _ ids [] hids
            fun _ he => absurd he List.not_mem_nil).pre
            fun m _ _ _ _ h => ?_) fun expired => ?_
          · exact ⟨.nil h.2, trivial, fun _ he => absurd he List.not_mem_nil, fun _ _ => trivial⟩
          · simp only [List.append_nil]
            refine Triple.assuming (fun m h => h.2.locked) fun hexpired => ?_
            refine .bind hsound ((triple_reapJobs expired [] hexpired
              fun p hp => absurd hp List.not_mem_nil).pre fun m _ _ _ _ h => ?_) fun r => ?_
            · exact h.2.batch
            refine Triple.assuming (fun m h => h.1) fun hr => ?_
            subst hr
            refine .bind hsound (triple_select (R := fun _ => Swept t rng now)
              ((Stable.const _).and stable_swept) (fun _ => stable_swept) fun m _ h => h.2)
              fun stale => ?_
            refine .bind hsound (triple_markStaleOffline stale) fun _ => ?_
            refine .bind hsound (triple_commit stable_swept stable_unlocked ?_
              fun m _ _ => unlocked_commit m) fun _ => ?_
            · rintro m hat ⟨rows, hbatch, hreaped⟩ id e' hp
              rcases hbatch.pending hp with ⟨e, hmem, rfl, he⟩ | hbase
              · exact .inr (.inl ⟨e, _, he, .reclaim offlineAfterSeconds rank rng e.job.id now,
                  hreaped (e, e') hmem, trivial⟩)
              · exact .inl hbase
            · exact .bind hsound triple_exitUnlocked fun _ =>
                .pure stable_unlocked fun m h => ⟨h, expired.length, rfl⟩

end Chronos
