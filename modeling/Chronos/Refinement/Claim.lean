import Chronos.Refinement.Batch
import Chronos.Refinement.Requests

namespace Chronos

open Txn (TxId Stable Triple)
open JobRepository (ClaimArgs)

variable {cond : Conditions} {c : Call} {t : TxId} {a : ClaimArgs} {now : Time}

-- A claimed job, by its committed entry and the pass that took it: the row flipped, then with its
-- attempt, and the job as RETURNING gives it.
def flippedRow (t : TxId) (a : ClaimArgs) (now : Time) (x : JobEntry × Pass) : JobEntry × JobEntry :=
  (x.1, x.1.claim t a.workerId a.leaseSeconds now x.2)

def claimedRow (t : TxId) (a : ClaimArgs) (now : Time) (x : JobEntry × Pass) : JobEntry × JobEntry :=
  (x.1, JobOp.claimed t a.workerId a.leaseSeconds now x.2 x.1)

def claimedJob (t : TxId) (a : ClaimArgs) (now : Time) (x : JobEntry × Pass) : Job :=
  (x.1.claim t a.workerId a.leaseSeconds now x.2).job

-- What the scan and the lock have established of a candidate.
structure Ready (cond : Conditions) (now : Time) (x : JobEntry × Pass) (m : Db) : Prop where
  pending : x.1.job.status = .pending
  due : x.1.job.runAt ≤ now
  deps : x.2 = .uncapped ∨ cond.gated → DepsMet m x.1

theorem stable_ready (x : JobEntry × Pass) : Stable (spec cond) t (Ready cond now x) :=
  fun m m' hwf hinv hi h =>
    ⟨h.pending, h.due, fun hp => stable_depsMet x.1 m m' hwf hinv hi (h.deps hp)⟩

theorem committedJob_own (m : Db) (k : Key) (v : Row k) (id : JobId) :
    committedJob (m.own t k v) id = committedJob m id := by
  rw [committedJob, Txn.Store.own_committed, committedJob]

theorem Ready.own {x : JobEntry × Pass} {m : Db} (h : Ready cond now x m) (k : Key) (v : Row k) :
    Ready cond now x (m.own t k v) := by
  refine ⟨h.pending, h.due, fun hp d hd => ?_⟩
  rw [committedJob_own]
  exact h.deps hp d hd

theorem Unrecorded.own {m : Db} (h : Unrecorded t m) (k : Key) (v : Row k) :
    Unrecorded t (m.own t k v) := by
  intro id e he
  rw [committedJob_own] at he
  exact h id e he

theorem HoldsQueue.own {q : QueueId} {m : Db} (h : HoldsQueue t q m) (k : Key) (v : Row k) :
    HoldsQueue t q (m.own t k v) := by
  obtain ⟨row, hrow⟩ := h
  by_cases hk : Key.queue q = k
  · subst hk
    exact ⟨v, by rw [Txn.Store.own_cell_self]⟩
  · exact ⟨row, by rw [Txn.Store.own_cell_ne t k v m hk]; exact hrow⟩

-- Assertions that no write of `t` to a job can break.
def OwnSafe (t : TxId) (J : Db → Prop) : Prop :=
  ∀ m id (e : JobEntry), J m → J (m.own t (.job id) e)

-- The jobs claimed so far, and nothing else, are locked.
structure Claiming (cond : Conditions) (t : TxId) (a : ClaimArgs) (now : Time)
    (L : List (JobEntry × Pass)) (m : Db) : Prop where
  batch : Batch t (L.map (flippedRow t a now)) m
  fresh : Unrecorded t m
  ready : ∀ x ∈ L, Ready cond now x m

theorem stable_claiming (L : List (JobEntry × Pass)) :
    Stable (spec cond) t (Claiming cond t a now L) :=
  fun m m' hwf hinv hi h =>
    ⟨stable_batch _ m m' hwf hinv hi h.batch, stable_unrecorded m m' hwf hinv hi h.fresh,
      fun x hx => stable_ready x m m' hwf hinv hi (h.ready x hx)⟩

theorem Claiming.perm {L L' : List (JobEntry × Pass)} {m : Db} (h : Claiming cond t a now L m)
    (hp : L.Perm L') : Claiming cond t a now L' m :=
  ⟨h.batch.perm (hp.map _), h.fresh, fun x hx => h.ready x (hp.mem_iff.mpr hx)⟩

-- What is known of the claimed jobs besides the locks, with whatever else `K` says.
structure Kept (cond : Conditions) (t : TxId) (now : Time) (L : List (JobEntry × Pass))
    (K : Db → Prop) (m : Db) : Prop where
  also : K m
  fresh : Unrecorded t m
  ready : ∀ x ∈ L, Ready cond now x m

theorem stable_kept (L : List (JobEntry × Pass)) {K : Db → Prop} (hK : Stable (spec cond) t K) :
    Stable (spec cond) t (Kept cond t now L K) :=
  fun m m' hwf hinv hi h =>
    ⟨hK m m' hwf hinv hi h.also, stable_unrecorded m m' hwf hinv hi h.fresh,
      fun x hx => stable_ready x m m' hwf hinv hi (h.ready x hx)⟩

theorem ownSafe_kept (L : List (JobEntry × Pass)) {K : Db → Prop} (hK : OwnSafe t K) :
    OwnSafe t (Kept cond t now L K) :=
  fun m id e h => ⟨hK m id e h.also, h.fresh.own _ _, fun x hx => (h.ready x hx).own _ _⟩

section Pass

-- One pass of claim_batch. `φ` is known of the rows it locks, `J n` leaves room for `n` more
-- flips, and `K` is carried along.
structure PassRules (cond : Conditions) (t : TxId) (a : ClaimArgs) (now : Time) (pass : Pass)
    (φ : JobEntry → Prop) (J : Nat → Db → Prop) : Prop where
  stable : ∀ n, Stable (spec cond) t (J n)
  mono : ∀ m n n', n' ≤ n → J n m → J n' m
  lock : ∀ n m (e : JobEntry), At cond t m → J n m → committedJob m e.job.id = some e →
    pendingJob m e.job.id = none → J n (m.own t (.job e.job.id) e)
  room : ∀ n m e, J (n + 1) m → φ e →
    (pass = .uncapped → ¬ cond.fixed e.job.queueId → ∀ k, ¬ Capped cond m e.job.queueId k) →
      ∀ k, Capped cond m e.job.queueId k →
        HoldsQueue t e.job.queueId m ∧ (load m e.job.queueId : Int) + 1 ≤ k
  flip : ∀ n m e, At cond t m → J (n + 1) m → φ e →
    J n (m.own t (.job e.job.id) (e.claim t a.workerId a.leaseSeconds now pass))

variable {pass : Pass} {φ : JobEntry → Prop} {J : Nat → Db → Prop} {K : Db → Prop}

theorem triple_updateCandidates (hrules : PassRules cond t a now pass φ J)
    (hK : Stable (spec cond) t K) (hKown : OwnSafe t K) (E : List JobEntry)
    (done : List (JobEntry × JobEntry)) (hφ : ∀ e ∈ E, φ e) :
    Triple (spec cond) c t
      (fun m => Batch t (E.map untouched ++ done) m ∧ J E.length m ∧ K m)
      (JobRepository.updateCandidates t a now pass E)
      fun jobs m => jobs = E.map (fun e => claimedJob t a now (e, pass)) ∧
        Batch t (E.map (fun e => flippedRow t a now (e, pass)) ++ done) m ∧ J 0 m ∧ K m := by
  have hsound := spec_sound cond
  induction E generalizing done with
  | nil =>
      exact .pure ((stable_batch _).and ((hrules.stable 0).and hK)) fun m h => ⟨rfl, h⟩
  | cons e E ih =>
      have hwrite : Triple (spec cond) c t
          (fun m => Batch t ((e, e) :: (E.map untouched ++ done)) m ∧ J (E.length + 1) m ∧ K m)
          (writeJob e.job.id (JobEntry.claim t a.workerId a.leaseSeconds now pass))
          fun r m => r = some (flippedRow t a now (e, pass)).2 ∧
            Batch t (flippedRow t a now (e, pass) :: (E.map untouched ++ done)) m ∧
              J E.length m ∧ K m := by
        refine triple_writeBatch ((hrules.stable _).and hK) ((hrules.stable _).and hK) ?_ ?_
        · intro m hat ⟨hj, _⟩ hp hperm
          refine .flipped e (Txn.Cell.seen_of_held hp) ⟨rfl, rfl, rfl, rfl, rfl⟩ (fun id hne => ?_)
            (hrules.room _ m e hj (hφ e List.mem_cons_self) fun hpass hfree => ?_)
          · exact Txn.Store.own_cell_ne t _ _ m (by simpa using hne)
          · subst hpass
            exact hperm.uncapped _ (.mk t a.workerId a.leaseSeconds now) e hp hfree
        · intro m hat ⟨hj, hk⟩
          exact ⟨hrules.flip _ m e hat hj (hφ e List.mem_cons_self), hKown m _ _ hk⟩
      refine .bind hsound hwrite fun row => ?_
      refine Triple.assuming (fun m h => h.1) fun hrow => ?_
      subst hrow
      refine .bind hsound ((ih (flippedRow t a now (e, pass) :: done)
        fun d hd => hφ d (List.mem_cons_of_mem _ hd)).pre fun m _ _ _ _ h =>
          ⟨h.2.1.perm List.perm_middle.symm, h.2.2⟩) fun rest => ?_
      refine .pure ((Stable.const _).and ((stable_batch _).and ((hrules.stable 0).and hK)))
        fun m ⟨hrest, hbatch, hj⟩ => ?_
      exact ⟨by rw [hrest]; rfl, hbatch.perm List.perm_middle, hj⟩

-- The tail of _claim_where, on what its scan has found.
theorem triple_claimRows (hrules : PassRules cond t a now pass φ J)
    (hK : Stable (spec cond) t K) (hKown : OwnSafe t K) {I : JobId → Db → Prop}
    (hI : ∀ id, Stable (spec cond) t (I id)) (hIown : ∀ id, OwnSafe t (I id))
    {guard : JobEntry → Bool} (hpending : ∀ e, guard e = true → e.job.status = .pending)
    (hlock : ∀ m id e, At cond t m → I id m → committedJob m id = some e →
      (m.cell (.job id)).seen t = some e → (m.cell (.job id)).freeFor t = true → guard e = true →
        Permits cond c t (.lock (Key.job id) guard) m → φ e ∧ Ready cond now (e, pass) m)
    (n : Nat) (ids : List JobId) (hids : ids.Nodup) (L : List (JobEntry × Pass)) :
    Triple (spec cond) c t
      (fun m => Claiming cond t a now L m ∧ J n m ∧ K m ∧ ∀ id ∈ ids, I id m)
      (JobRepository.lockRows guard n ids >>= JobRepository.updateCandidates t a now pass)
      fun jobs m => ∃ E : List JobEntry, jobs = E.map (fun e => claimedJob t a now (e, pass)) ∧
        Claiming cond t a now (E.map (fun e => (e, pass)) ++ L) m ∧ K m := by
  have hsound := spec_sound cond
  -- What is flipped does not qualify any more.
  have hflipped : ∀ p ∈ L.map (flippedRow t a now), guard p.2 = false := by
    intro p hp
    obtain ⟨x, -, rfl⟩ := List.mem_map.mp hp
    rw [← Bool.not_eq_true]
    intro hg
    exact nomatch hpending _ hg
  have hrows : LockRules cond c t guard I (fun e m => φ e ∧ Ready cond now (e, pass) m)
      (fun m => J n m ∧ Kept cond t now L K m) (L.map (flippedRow t a now)) :=
    { stableI := hI
      stableΦ := fun e => (Stable.const _).and (stable_ready _)
      stableJ := (hrules.stable n).and (stable_kept L hK)
      lock := fun m id e hat hi _ => hlock m id e hat hi
      ownI := fun id m i v h => hIown id m i v h
      ownΦ := fun e m i v h => ⟨h.1, h.2.own _ _⟩
      ownJ := fun m e hat h he hpend =>
        ⟨hrules.lock n m e hat h.1 he hpend, ownSafe_kept L hKown m _ _ h.2⟩
      done := hflipped }
  refine .bind hsound ((triple_lockRows hrows n ids [] hids
    fun _ he => absurd he List.not_mem_nil).pre
    fun m _ _ _ _ h => ?_) fun locked => ?_
  · obtain ⟨hclaiming, hj, hk, hi⟩ := h
    exact ⟨hclaiming.batch, ⟨hj, hk, hclaiming.fresh, hclaiming.ready⟩,
      fun _ he => absurd he List.not_mem_nil, hi⟩
  · simp only [List.append_nil]
    refine Triple.assuming (φ := locked.length ≤ n ∧ ∀ e ∈ locked, φ e)
      (fun m h => ⟨h.1, fun e he => (h.2.locked e he).1⟩) fun ⟨hlen, hφ⟩ => ?_
    have hst : Stable (spec cond) t
        (Kept cond t now (locked.map (fun e => (e, pass)) ++ L) K) := stable_kept _ hK
    refine ((triple_updateCandidates hrules hst (ownSafe_kept _ hKown) locked
      (L.map (flippedRow t a now)) hφ).pre
        fun m _ _ _ _ h => ?_).post fun jobs m h => ?_
    · obtain ⟨-, hbatch, ⟨hj, hkept⟩, hΦ, -⟩ := h
      refine ⟨hbatch, hrules.mono m n _ hlen hj, hkept.also, hkept.fresh, fun x hx => ?_⟩
      rcases List.mem_append.mp hx with hx | hx
      · obtain ⟨e, he, rfl⟩ := List.mem_map.mp hx
        exact (hΦ e he).2
      · exact hkept.ready x hx
    · obtain ⟨hjobs, hbatch, -, hkept⟩ := h
      refine ⟨locked, hjobs, ⟨?_, hkept.fresh, hkept.ready⟩, hkept.also⟩
      rw [List.map_append, List.map_map]
      exact hbatch

end Pass

end Chronos
