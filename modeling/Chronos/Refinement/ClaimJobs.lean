import Chronos.Refinement.Claim

namespace Chronos

open Txn (TxId Stable Triple)
open JobRepository (ClaimArgs)

variable {cond : Conditions} {c : Call} {t : TxId} {a : ClaimArgs} {now : Time}

section Uncapped

-- The uncapped pass takes no job of a queue whose cap is fixed.
def Uncapped (cond : Conditions) (e : JobEntry) : Prop :=
  cond.fixed e.job.queueId → cond.cap e.job.queueId = none

theorem uncapped_rules : PassRules cond t a now .uncapped (Uncapped cond) fun _ _ => True where
  stable _ := Stable.const True
  mono _ _ _ _ h := h
  lock _ _ _ _ h _ _ := h
  room _ _ e _ he hno k hk := by
    by_cases hfixed : cond.fixed e.job.queueId
    · have hcap := hk.cap
      rw [he hfixed] at hcap
      cases hcap
    · exact absurd hk (hno rfl hfixed k)
  flip _ _ _ _ h _ := h

-- What the scan says of a candidate's dependencies, which do not change.
def DepsSeen (v : Snapshot) (id : JobId) (m : Db) : Prop :=
  ∃ deps : List JobId, (∃ e, committedJob m id = some e ∧ e.dependsOn = deps) ∧
    ((deps.any fun d => (v.job d).any fun dep => dep.job.status ≠ .succeeded) = false →
      ∀ d ∈ deps, ∃ dep, committedJob m d = some dep ∧ dep.job.status = .succeeded)

theorem stable_depsSeen (v : Snapshot) (id : JobId) : Stable (spec cond) t (DepsSeen v id) :=
  Stable.exists fun deps => (Stable.entry (lasting_dependsOn deps) id).and
    (Stable.imp (Stable.all fun d => Stable.imp (Stable.entry lasting_succeeded d)))

theorem ownSafe_depsSeen (v : Snapshot) (id : JobId) : OwnSafe t (DepsSeen v id) := by
  rintro m i w ⟨deps, ⟨e, he, hdeps⟩, hmet⟩
  refine ⟨deps, ⟨e, by rwa [committedJob_own], hdeps⟩, fun hno d hd => ?_⟩
  rw [committedJob_own]
  exact hmet hno d hd

-- The snapshot shows what is committed to a transaction that has locked nothing.
theorem Unlocked.view_job {m : Db} (h : Unlocked t m) (id : JobId) :
    Snapshot.job (m.view t) id = committedJob m id := h.noJobs.seen id

-- What the uncapped scan returns.
structure UncappedScan (cond : Conditions) (a : ClaimArgs) (now : Time)
    (r : List JobId × (JobEntry → Bool)) (v : Snapshot) : Prop where
  eq : r = JobRepository.uncappedScan a now v
  nodup : v.keys.Nodup
  caps : ∀ q k, cond.fixed q → cond.cap q = some k → ∀ row, v.queue q = some row →
    row.maxConcurrency = some k

theorem mem_inOrder {aging : JobRepository.Aging} {rows : List (JobId × JobEntry)} {id : JobId} :
    id ∈ JobRepository.inOrder aging now rows ↔ id ∈ rows.map Prod.fst :=
  ((List.perm_insertionSort _ rows).map Prod.fst).mem_iff

theorem nodup_inOrder {aging : JobRepository.Aging} {rows : List (JobId × JobEntry)}
    (h : (rows.map Prod.fst).Nodup) : (JobRepository.inOrder aging now rows).Nodup :=
  ((List.perm_insertionSort _ rows).map Prod.fst).nodup_iff.mpr h

theorem triple_uncapped (n : Nat) :
    Triple (spec cond) c t (fun m => Unlocked t m ∧ Unrecorded t m)
      (JobRepository.claimWhere t a now .uncapped (JobRepository.uncappedScan a now) n)
      fun jobs m => ∃ E : List JobEntry,
        jobs = E.map (fun e => claimedJob t a now (e, .uncapped)) ∧
          Claiming cond t a now (E.map fun e => (e, .uncapped)) m ∧
            ∀ id, ∀ v : Queue, (m.cell (.queue id)).pending ≠ some (t, v) := by
  have hsound := spec_sound cond
  have hK : Stable (spec cond) t fun m => ∀ id, ∀ v : Queue,
      (m.cell (.queue id)).pending ≠ some (t, v) :=
    Stable.all fun id => Stable.held (V := Row) (Key.queue id) fun _ _ => False
  refine .bind hsound (triple_select (R := fun r m => ∃ v, UncappedScan cond a now r v ∧
    Unlocked t m ∧ Unrecorded t m ∧ ∀ id ∈ r.1, DepsSeen v id m)
    (stable_unlocked.and stable_unrecorded) (fun r => Stable.exists fun v => (Stable.const _).and
      (stable_unlocked.and (stable_unrecorded.and (Stable.all fun id =>
        Stable.imp (stable_depsSeen v id))))) ?_) fun r => ?_
  · intro m hat ⟨hfree, hfresh⟩
    refine ⟨m.view t, ⟨rfl, hat.wf.nodup, fun q k hfixed hq row hrow => ?_⟩, hfree, hfresh, ?_⟩
    · refine hat.caps q k hfixed hq row ?_
      rw [committedQueue, ← hfree.seen]
      exact hrow
    · intro id hid
      obtain ⟨p, hp, rfl⟩ := List.mem_map.mp (mem_inOrder.mp hid)
      obtain ⟨-, he, -⟩ := mem_jobsWhere.mp hp
      rw [hfree.view_job] at he
      refine ⟨p.2.dependsOn, ⟨p.2, he, rfl⟩, fun hmet d hd => ?_⟩
      obtain ⟨dep, hdep⟩ := hat.inv.deps p.1 p.2 he d hd
      refine ⟨dep, hdep, ?_⟩
      rw [List.any_eq_false] at hmet
      have hno := hmet d hd
      rw [hfree.view_job, hdep] at hno
      simpa using hno
  · refine Triple.exists_pre fun v => Triple.assuming (fun m h => h.1) fun hscan => ?_
    obtain ⟨rfl, hnodup, hcaps⟩ := hscan
    refine ((triple_claimRows (I := DepsSeen v) (L := []) uncapped_rules hK ?_
      (stable_depsSeen v) (ownSafe_depsSeen v) ?_ ?_ n _ (nodup_inOrder (nodup_jobsWhere hnodup _))).pre
        fun m _ _ _ _ h => ?_).post fun jobs m h => ?_
    · intro m i w h id row hp
      rw [Txn.Store.own_cell_ne t _ _ m (by simp)] at hp
      exact h id row hp
    · intro e hg
      rw [JobRepository.uncappedWhere, Option.any_eq_true] at hg
      obtain ⟨q, -, hg⟩ := hg
      simp only [JobRepository.baseFilters, decide_eq_true_eq] at hg
      exact hg.1.1
    · intro m id e hat hseen he _ _ hg hperm
      rw [JobRepository.uncappedWhere, Option.any_eq_true] at hg
      obtain ⟨q, hq, hg⟩ := hg
      simp only [JobRepository.baseFilters, decide_eq_true_eq] at hg
      obtain ⟨⟨hpending, hdue, -, -, hmet, -⟩, hcap⟩ := hg
      refine ⟨fun hfixed => ?_, hpending, hdue, fun _ => ?_⟩
      · cases hk : cond.cap e.job.queueId with
        | none => rfl
        | some k =>
            rw [hcaps _ k hfixed hk q hq] at hcap
            cases hcap
      · obtain ⟨deps, ⟨e', he', rfl⟩, himp⟩ := hseen
        obtain rfl : e' = e := Option.some.inj (he'.symm.trans he)
        exact himp hmet
    · obtain ⟨-, hfree, hfresh, hdeps⟩ := h
      exact ⟨⟨.nil hfree.noJobs, hfresh, fun x hx => absurd hx List.not_mem_nil⟩, trivial,
        fun id row => hfree (.queue id) row, hdeps⟩
    · obtain ⟨E, hjobs, hclaiming, hk⟩ := h
      rw [List.append_nil] at hclaiming
      exact ⟨E, hjobs, hclaiming, hk⟩

end Uncapped

section Capped

-- The queue row is locked, and `n` more jobs may be flipped.
def CapRoom (cond : Conditions) (t : TxId) (q : QueueId) (n : Nat) (m : Db) : Prop :=
  HoldsQueue t q m ∧ ∀ k, Capped cond m q k → (load m q : Int) + n ≤ k

theorem running_own_ne {m : Db} {id id' : JobId} (h : id' ≠ id) (e : JobEntry) (q : QueueId) :
    running (m.own t (.job id) e) q id' = running m q id' := by
  rw [running, committedJob, pendingJob, Txn.Store.own_cell_ne t _ _ m (by simpa using h),
    running, committedJob, pendingJob]

theorem load_own_le_succ (m : Db) (id : JobId) (e : JobEntry) (q : QueueId) :
    load (m.own t (.job id) e) q ≤ load m q + 1 := by
  refine (Finset.card_le_card fun id' h => ?_).trans (Finset.card_insert_le id (loaded m q))
  rw [Finset.mem_insert]
  by_cases heq : id' = id
  · exact .inl heq
  · obtain ⟨hk, hrun⟩ := mem_loaded.mp h
    rw [running_own_ne heq] at hrun
    exact .inr (mem_loaded.mpr ⟨hk, hrun⟩)

-- Locking a row makes it count no more than it did.
theorem load_own_committed {m : Db} {id : JobId} {e : JobEntry} (he : committedJob m id = some e)
    (q : QueueId) : load (m.own t (.job id) e) q ≤ load m q := by
  refine Finset.card_le_card fun id' h => ?_
  obtain ⟨hk, hrun⟩ := mem_loaded.mp h
  refine mem_loaded.mpr ⟨hk, ?_⟩
  by_cases heq : id' = id
  · subst heq
    rw [running, committedJob_own, he, pendingJob, Txn.Store.own_cell_self] at hrun
    rw [running, he]
    simp only [Option.any_some, Bool.or_self] at hrun ⊢
    rw [hrun, Bool.true_or]
  · rwa [running_own_ne heq] at hrun

theorem capped_rules (q : QueueId) :
    PassRules cond t a now .capped (fun e => e.job.queueId = q) (CapRoom cond t q) where
  stable n := by
    intro m m' hwf hinv hi ⟨hhold, hle⟩
    refine ⟨stable_holdsQueue q m m' hwf hinv hi hhold, fun k hk => ?_⟩
    have hold : ∀ k', Capped cond m q k' → (load m q : Int) ≤ k - n := fun k' hk' => by
      obtain rfl : k' = k := Option.some.inj (hk'.cap.symm.trans hk.cap)
      have hroom := hle k' hk'
      omega
    have hload := (stable_load q (k - n) m m' hwf hinv hi ⟨hhold, hold⟩).2 k hk
    omega
  mono m n n' hn h := by
    refine ⟨h.1, fun k hk => ?_⟩
    have hle := h.2 k hk
    omega
  lock n m e hat h he hp := by
    refine ⟨h.1.own _ _, fun k hk => ?_⟩
    have hle := h.2 k (capped_congr (committedQueue_own _ _) hk)
    have hload := load_own_committed (t := t) he q
    omega
  room n m e h he _ k hk := by
    subst he
    have hle := h.2 k hk
    exact ⟨h.1, by omega⟩
  flip n m e hat h he := by
    refine ⟨h.1.own _ _, fun k hk => ?_⟩
    have hle := h.2 k (capped_congr (committedQueue_own _ _) hk)
    have hload := load_own_le_succ (t := t) m e.job.id
      (e.claim t a.workerId a.leaseSeconds now .capped) q
    omega

-- The rows of capped queues that are locked, with the caps read from them.
def QueueLocks (cond : Conditions) (t : TxId) (rows : List (QueueId × Int)) (m : Db) : Prop :=
  ∀ r ∈ rows, HoldsQueue t r.1 m ∧ ∀ k, Capped cond m r.1 k → r.2 = k

theorem stable_queueLocks (rows : List (QueueId × Int)) :
    Stable (spec cond) t (QueueLocks cond t rows) :=
  Stable.all fun r => Stable.imp fun m m' hwf hinv hi h =>
    ⟨stable_holdsQueue r.1 m m' hwf hinv hi h.1, fun k hk => h.2 k (capped_of_held hi h.1 hk)⟩

theorem QueueLocks.own {rows : List (QueueId × Int)} {m : Db} (h : QueueLocks cond t rows m)
    (k : Key) (v : Row k) : QueueLocks cond t rows (m.own t k v) :=
  fun r hr => ⟨(h r hr).1.own k v, fun n hn => (h r hr).2 n (capped_congr (committedQueue_own _ _) hn)⟩

-- The queue rows `t` has locked are as they were committed.
def OwnCaps (cond : Conditions) (t : TxId) (m : Db) : Prop :=
  ∀ id, ∀ row : Queue, (m.cell (.queue id)).pending = some (t, row) →
    ∀ k, Capped cond m id k → row.maxConcurrency = some k

theorem stable_ownCaps : Stable (spec cond) t (OwnCaps cond t) := by
  intro m m' hwf hinv hi h id row hp k hk
  have hold := hi.held_iff.mpr hp
  exact h id row hold k (capped_of_held hi ⟨row, hold⟩ hk)

theorem OwnCaps.seen {m : Db} (h : OwnCaps cond t m) {id : QueueId} {row : Queue}
    (hseen : (m.cell (.queue id)).seen t = some row) {k : Int} (hk : Capped cond m id k) :
    row.maxConcurrency = some k := by
  rcases Txn.Cell.seen_cases hseen with hp | hc
  · exact h id row hp k hk
  · exact hk.row row hc

theorem OwnCaps.own {m : Db} (h : OwnCaps cond t m) {id : QueueId} {row : Queue}
    (hrow : ∀ k, Capped cond m id k → row.maxConcurrency = some k) :
    OwnCaps cond t (m.own t (.queue id) row) := by
  intro id' row' hp k hk'
  have hk := capped_congr (committedQueue_own _ _) hk'
  by_cases heq : id' = id
  · subst heq
    rw [Txn.Store.own_cell_self, Option.some.injEq, Prod.mk.injEq] at hp
    exact hp.2 ▸ hrow k hk
  · rw [Txn.Store.own_cell_ne t _ _ m (by simpa using heq)] at hp
    exact h id' row' hp k hk

theorem Claiming.own_queue {L : List (JobEntry × Pass)} {m : Db} (h : Claiming cond t a now L m)
    (id : QueueId) (row : Queue) : Claiming cond t a now L (m.own t (.queue id) row) :=
  ⟨h.batch.own_ne (by simp), h.fresh.own _ _, fun x hx => (h.ready x hx).own _ _⟩

def capOf (id : QueueId) (row : Option Queue) : List (QueueId × Int) :=
  ((row.bind Queue.maxConcurrency).map fun cap => (id, cap)).toList

-- A queue row is locked as it is.
theorem ownQueue {m : Db} {id : QueueId} {row : Queue} (hat : At cond t m)
    (hcaps : OwnCaps cond t m) (hseen : (m.cell (.queue id)).seen t = some row) :
    Guar cond c t m (m.own t (.queue id) row) ∧ OwnCaps cond t (m.own t (.queue id) row) := by
  have hname : ∀ q₀, committedQueue m id = some q₀ → q₀.SameName row :=
    fun q₀ hq₀ => hat.inv.sameName_seen hq₀ hseen
  exact ⟨.own_queue (hat.inv.queues id row (queueVersion_of_seen hseen)) hname,
    hcaps.own fun k hk => hcaps.seen hseen hk⟩

theorem triple_lockQueues (L : List (JobEntry × Pass)) (queues : List String)
    (ids : List QueueId) (acc : List (QueueId × Int)) :
    Triple (spec cond) c t
      (fun m => Claiming cond t a now L m ∧ OwnCaps cond t m ∧ QueueLocks cond t acc m)
      (JobRepository.lockQueues queues ids)
      fun rows m => Claiming cond t a now L m ∧ QueueLocks cond t (rows ++ acc) m := by
  have hsound := spec_sound cond
  have hst : ∀ acc, Stable (spec cond) t fun m => Claiming cond t a now L m ∧ OwnCaps cond t m ∧
      QueueLocks cond t acc m :=
    fun acc => (stable_claiming L).and (stable_ownCaps.and (stable_queueLocks acc))
  induction ids generalizing acc with
  | nil => exact .pure (hst acc) fun m h => ⟨h.1, h.2.2⟩
  | cons id ids ih =>
      refine .bind hsound (triple_lock (R := fun row m => Claiming cond t a now L m ∧
        OwnCaps cond t m ∧ QueueLocks cond t (capOf id row ++ acc) m) (hst acc)
        (fun row => hst (capOf id row ++ acc)) (fun m _ h => h) ?_ ?_) fun row => ?_
      · intro m row hat ⟨hclaiming, hcaps, hlocks⟩ hseen _ _
        obtain ⟨hguar, hcaps'⟩ := ownQueue hat hcaps hseen
        exact ⟨hguar, hclaiming.own_queue id row, hcaps', hlocks.own _ _⟩
      · intro m row hat ⟨hclaiming, hcaps, hlocks⟩ hseen _ _ _
        have hrow : ∀ k, Capped cond m id k → row.maxConcurrency = some k :=
          fun k hk => hcaps.seen hseen hk
        obtain ⟨hguar, hcaps'⟩ := ownQueue hat hcaps hseen
        refine ⟨hguar, hclaiming.own_queue id row, hcaps', fun r hr => ?_⟩
        rcases List.mem_append.mp hr with hr | hr
        · rw [capOf, Option.mem_toList, Option.map_eq_some_iff] at hr
          obtain ⟨cap, hcap, rfl⟩ := hr
          refine ⟨⟨row, by rw [Txn.Store.own_cell_self]⟩, fun k hk => ?_⟩
          rw [Option.bind_some, hrow k (capped_congr (committedQueue_own _ _) hk)] at hcap
          exact (Option.some.inj hcap).symm
        · exact hlocks.own _ _ r hr
      · refine .bind hsound (ih (capOf id row ++ acc)) fun rest => ?_
        refine .pure ((stable_claiming L).and (stable_queueLocks _)) fun m ⟨hclaiming, hlocks⟩ => ?_
        refine ⟨hclaiming, fun r hr => hlocks r ?_⟩
        simp only [List.mem_append] at hr ⊢
        tauto

-- The running count misses nothing, as long as the queue row is locked.
theorem load_le_countRunning {L : List (JobEntry × Pass)} {m : Db} (hat : At cond t m)
    (hclaiming : Claiming cond t a now L m) {q : QueueId} {k : Int} (hk : Capped cond m q k)
    (hhold : HoldsQueue t q m) :
    (load m q : Int) ≤ JobRepository.countRunning q (m.view t) := by
  have hcommitted : ∀ {id e}, committedJob m id = some e → e.counts q = true →
      (m.cell (.job id)).seen t = some e := by
    intro id e he hc
    refine (hclaiming.batch.seen_of_notMem fun p hmem heq => ?_).trans he
    have hbase := (hclaiming.batch.held p hmem).2
    obtain ⟨x, hx, rfl⟩ := List.mem_map.mp hmem
    obtain rfl : x.1 = e := Option.some.inj (hbase.symm.trans (heq ▸ he))
    have hrun := (JobEntry.counts_iff.mp hc).2
    rw [(hclaiming.ready x hx).pending] at hrun
    cases hrun
  have hsub : loaded m q ⊆ ((Snapshot.jobsWhere (m.view t) (·.counts q)).map Prod.fst).toFinset := by
    intro id hid
    obtain ⟨hkeys, hrun⟩ := mem_loaded.mp hid
    have hseen : ∃ e, (m.cell (.job id)).seen t = some e ∧ e.counts q = true := by
      rw [running, Bool.or_eq_true] at hrun
      rcases hrun with hrun | hrun
      · obtain ⟨e, he, hc⟩ := (Option.any_eq_true _ _).mp hrun
        exact ⟨e, hcommitted he hc, hc⟩
      · obtain ⟨⟨s, e⟩, hp, hc⟩ := (Option.any_eq_true _ _).mp hrun
        by_cases hs : s = t
        · subst hs
          exact ⟨e, Txn.Cell.seen_of_held hp, hc⟩
        · -- Nobody else has flipped a job of a queue that is locked here.
          rcases (hat.inv.caps q k hk).flips id s e hp hc with hrun | ⟨row, hrow⟩
          · obtain ⟨d, hd, hcd⟩ := (Option.any_eq_true _ _).mp hrun
            exact ⟨d, hcommitted hd hcd, hcd⟩
          · obtain ⟨row', hrow'⟩ := hhold
            rw [hrow, Option.some.injEq, Prod.mk.injEq] at hrow'
            exact absurd hrow'.1 hs
    obtain ⟨e, he, hc⟩ := hseen
    rw [List.mem_toFinset, List.mem_map]
    exact ⟨(id, e), mem_jobsWhere.mpr ⟨hkeys, he, hc⟩, rfl⟩
  have hcard := (Finset.card_le_card hsub).trans (List.toFinset_card_le _)
  rw [List.length_map] at hcard
  exact Int.ofNat_le.mpr hcard

-- The count was taken under the row lock, and the cap is the queue's.
def Room (cond : Conditions) (t : TxId) (q : QueueId) (cap running : Int) (m : Db) : Prop :=
  HoldsQueue t q m ∧ ∀ k, Capped cond m q k → cap = k ∧ (load m q : Int) ≤ running

theorem stable_room (q : QueueId) (cap running : Int) :
    Stable (spec cond) t (Room cond t q cap running) :=
  fun m m' hwf hinv hi h => by
    have hload := stable_load q running m m' hwf hinv hi ⟨h.1, fun k hk => (h.2 k hk).2⟩
    exact ⟨hload.1, fun k hk => ⟨(h.2 k (capped_of_held hi h.1 hk)).1, hload.2 k hk⟩⟩

-- The jobs a sequence of passes has added to those claimed before.
def Added (cond : Conditions) (t : TxId) (a : ClaimArgs) (now : Time) (L : List (JobEntry × Pass))
    (jobs : List Job) (m : Db) : Prop :=
  ∃ E : List (JobEntry × Pass), jobs = E.map (claimedJob t a now) ∧
    Claiming cond t a now (E ++ L) m

theorem stable_added (L : List (JobEntry × Pass)) (jobs : List Job) :
    Stable (spec cond) t (Added cond t a now L jobs) :=
  Stable.exists fun E => (Stable.const _).and (stable_claiming (E ++ L))

theorem triple_capped (q : QueueId) (n : Nat) (L : List (JobEntry × Pass))
    (rows : List (QueueId × Int)) :
    Triple (spec cond) c t
      (fun m => Claiming cond t a now L m ∧ CapRoom cond t q n m ∧ QueueLocks cond t rows m)
      (JobRepository.claimWhere t a now .capped (JobRepository.cappedScan a now q) n)
      fun jobs m => ∃ E : List JobEntry,
        jobs = E.map (fun e => claimedJob t a now (e, .capped)) ∧
          Claiming cond t a now (E.map (fun e => (e, .capped)) ++ L) m ∧
            QueueLocks cond t rows m := by
  have hsound := spec_sound cond
  have hrules : PassRules cond t a now .capped (fun e => e.job.queueId = q) (CapRoom cond t q) :=
    capped_rules q
  have hst : Stable (spec cond) t fun m => Claiming cond t a now L m ∧ CapRoom cond t q n m ∧
      QueueLocks cond t rows m :=
    (stable_claiming L).and ((hrules.stable n).and (stable_queueLocks rows))
  refine .bind hsound (triple_select (R := fun r m =>
    (r.2 = JobRepository.cappedWhere now q ∧ r.1.Nodup) ∧ Claiming cond t a now L m ∧
      CapRoom cond t q n m ∧ QueueLocks cond t rows m) hst
    (fun r => (Stable.const _).and hst) ?_) fun r => ?_
  · intro m hat h
    exact ⟨⟨rfl, nodup_inOrder (nodup_jobsWhere hat.wf.nodup _)⟩, h⟩
  · obtain ⟨ids, guard⟩ := r
    refine Triple.assuming (fun m h => h.1) fun ⟨hguard, hids⟩ => ?_
    dsimp only at hguard hids
    subst hguard
    refine (triple_claimRows (I := fun _ _ => True) hrules (stable_queueLocks rows)
      (fun m id e h => h.own _ _) (fun _ => Stable.const _) (fun _ _ _ _ h => h) ?_ ?_ n ids hids
      L).pre fun m _ _ _ _ h => ⟨h.2.1, h.2.2.1, h.2.2.2, fun _ _ => trivial⟩
    · intro e hg
      simp only [JobRepository.cappedWhere, decide_eq_true_eq] at hg
      exact hg.1
    · intro m id e hat _ _ hseen hfree hg hperm
      have hrow := hg
      simp only [JobRepository.cappedWhere, decide_eq_true_eq] at hrow
      refine ⟨hrow.2.2, hrow.1, hrow.2.1, fun hor => ?_⟩
      rcases hor with h | hgated
      · cases h
      · exact hperm.gated id now q .mk hgated e hseen hfree hg

theorem triple_claimFromQueues (rows : List (QueueId × Int)) (n : Nat)
    (L : List (JobEntry × Pass)) :
    Triple (spec cond) c t (fun m => Claiming cond t a now L m ∧ QueueLocks cond t rows m)
      (JobRepository.claimFromQueues t a now rows n) (Added cond t a now L) := by
  have hsound := spec_sound cond
  have hst : ∀ (rows : List (QueueId × Int)) (L : List (JobEntry × Pass)),
      Stable (spec cond) t fun m => Claiming cond t a now L m ∧ QueueLocks cond t rows m :=
    fun rows L => (stable_claiming L).and (stable_queueLocks rows)
  have hnone : ∀ (rows : List (QueueId × Int)) (L : List (JobEntry × Pass)), Triple (spec cond) c t
      (fun m => Claiming cond t a now L m ∧ QueueLocks cond t rows m) (pure [])
      (Added cond t a now L) :=
    fun rows L => .pure (hst rows L) fun m h => ⟨[], rfl, h.1⟩
  induction rows generalizing n L with
  | nil => exact hnone [] L
  | cons r rows ih =>
      obtain ⟨q, cap⟩ := r
      unfold JobRepository.claimFromQueues
      split
      · exact hnone _ L
      · refine .bind hsound (triple_select (R := fun running m => Claiming cond t a now L m ∧
          Room cond t q cap running m ∧ QueueLocks cond t rows m) (hst _ L)
          (fun running => (stable_claiming L).and ((stable_room q cap running).and
            (stable_queueLocks rows))) ?_) fun running => ?_
        · rintro m hat ⟨hclaiming, hlocks⟩
          obtain ⟨hhold, hcap⟩ := hlocks (q, cap) List.mem_cons_self
          exact ⟨hclaiming, ⟨hhold, fun k hk =>
            ⟨hcap k hk, load_le_countRunning hat hclaiming hk hhold⟩⟩,
            fun r hr => hlocks r (List.mem_cons_of_mem _ hr)⟩
        · dsimp only
          split
          · exact (ih n L).pre fun m _ _ _ _ h => ⟨h.1, h.2.2⟩
          · refine .bind hsound ((triple_capped q _ L rows).pre fun m _ _ _ _ h =>
              ⟨h.1, ⟨h.2.1.1, fun k hk => ?_⟩, h.2.2⟩) fun batch => ?_
            · obtain ⟨hcap, hload⟩ := h.2.1.2 k hk
              omega
            · refine Triple.exists_pre fun E => Triple.assuming (fun m h => h.1) fun hbatch => ?_
              refine .bind hsound ((ih (n - batch.length) (E.map (fun e => (e, .capped)) ++ L)).pre
                fun m _ _ _ _ h => h.2) fun rest => ?_
              refine .pure (stable_added _ rest) ?_
              rintro m ⟨E', hrest, hclaiming⟩
              refine ⟨E.map (fun e => (e, .capped)) ++ E', ?_, hclaiming.perm ?_⟩
              · rw [hbatch, hrest, List.map_append, List.map_map]
                rfl
              · rw [← List.append_assoc]
                exact List.perm_append_comm.append_right L

theorem triple_claimCapped (n : Nat) (L : List (JobEntry × Pass)) :
    Triple (spec cond) c t (fun m => Claiming cond t a now L m ∧ OwnCaps cond t m)
      (JobRepository.claimCapped t a now n) (Added cond t a now L) := by
  have hsound := spec_sound cond
  have hst : Stable (spec cond) t fun m => Claiming cond t a now L m ∧ OwnCaps cond t m :=
    (stable_claiming L).and stable_ownCaps
  refine .bind hsound (triple_select (R := fun _ m => Claiming cond t a now L m ∧ OwnCaps cond t m)
    hst (fun _ => hst) fun m _ h => h) fun ids => ?_
  refine .bind hsound ((triple_lockQueues L a.queues ids []).pre fun m _ _ _ _ h =>
    ⟨h.1, h.2, fun r hr => absurd hr List.not_mem_nil⟩) fun rows => ?_
  refine (triple_claimFromQueues rows n L).pre fun m _ _ _ _ h => ?_
  rw [List.append_nil] at h
  exact h

end Capped

theorem triple_claimBatch :
    Triple (spec cond) c t (fun m => Unlocked t m ∧ Unrecorded t m)
      (JobRepository.claimBatch t a now) (Added cond t a now []) := by
  have hsound := spec_sound cond
  refine .bind hsound (triple_uncapped a.limit) fun claimed => ?_
  refine Triple.exists_pre fun E => Triple.assuming (fun m h => h.1) fun hclaimed => ?_
  dsimp only
  split
  · refine .bind hsound ((triple_claimCapped _ (E.map fun e => (e, .uncapped))).pre
      fun m _ _ _ _ h => ⟨h.2.1, fun id row hp => absurd hp (h.2.2 id row)⟩) fun more => ?_
    refine .pure (stable_added _ more) ?_
    rintro m ⟨E', hmore, hclaiming⟩
    refine ⟨E.map (fun e => (e, .uncapped)) ++ E', ?_, hclaiming.perm ?_⟩
    · rw [hclaimed, hmore, List.map_append, List.map_map]
      rfl
    · rw [List.append_nil]
      exact List.perm_append_comm
  · refine .pure ((Stable.const _).and ((stable_claiming _).and ?_)) fun m h =>
      ⟨E.map fun e => (e, .uncapped), ?_, ?_⟩
    · exact Stable.all fun id => Stable.held (V := Row) (Key.queue id) fun _ _ => False
    · rw [hclaimed, List.map_map]
      rfl
    · rw [List.append_nil]
      exact h.2.1

section Commit

-- The attempts are started one by one; `D` are the jobs that have theirs.
theorem triple_startAttempts (L D : List (JobEntry × Pass)) :
    Triple (spec cond) c t
      (fun m => Batch t (L.map (flippedRow t a now) ++ D.map (claimedRow t a now)) m ∧
        Kept cond t now (L ++ D) (fun _ => True) m)
      (ExecutionService.startAttempts a.workerId now (L.map (claimedJob t a now)))
      fun _ m => Batch t ((L ++ D).map (claimedRow t a now)) m ∧
        Kept cond t now (L ++ D) (fun _ => True) m := by
  induction L generalizing D with
  | nil => exact .pure ((stable_batch _).and (stable_kept _ (Stable.const True))) fun m h => h
  | cons x L ih =>
      have hkept : Stable (spec cond) t (Kept cond t now (x :: L ++ D) fun _ => True) :=
        stable_kept _ (Stable.const True)
      have hwrite : Triple (spec cond) c t
          (fun m => Batch t (flippedRow t a now x ::
              (L.map (flippedRow t a now) ++ D.map (claimedRow t a now))) m ∧
            Kept cond t now (x :: L ++ D) (fun _ => True) m)
          (writeJob x.1.job.id
            (JobEntry.startAttempt a.workerId (claimedJob t a now x).attemptCount now))
          fun r m => r = some (claimedRow t a now x).2 ∧ Batch t (claimedRow t a now x ::
              (L.map (flippedRow t a now) ++ D.map (claimedRow t a now))) m ∧
            Kept cond t now (x :: L ++ D) (fun _ => True) m :=
        triple_writeBatch hkept hkept
          (fun m hat _ hp _ => .updated _ (Txn.Cell.seen_of_held hp) ⟨rfl, rfl, rfl, rfl, rfl⟩
            fun h => h)
          fun m hat h => ownSafe_kept _ (fun _ _ _ h => h) m _ _ h
      refine .bind (spec_sound cond) hwrite fun _ => ?_
      refine ((ih (x :: D)).pre fun m _ _ _ _ h => ⟨h.2.1.perm List.perm_middle.symm, ?_⟩).post
        fun _ m h => ⟨h.1.perm (List.perm_middle.map _), ?_⟩
      · exact ⟨trivial, h.2.2.fresh, fun y hy =>
          h.2.2.ready y (List.perm_middle.mem_iff.mp hy)⟩
      · exact ⟨trivial, h.2.fresh, fun y hy => h.2.ready y (List.perm_middle.symm.mem_iff.mp hy)⟩

-- What holds of the jobs a claim returns.
def Returned (t : TxId) (workerId : WorkerId) (jobs : List Job) (m : Db) : Prop :=
  (∀ job ∈ jobs, ∃ e, committedJob m job.id = some e ∧ e.HandedOut t workerId job) ∧
    ∀ id e, committedJob m id = some e → ∀ holder pass, .claimed t holder pass ∈ e.log →
      ∃ job ∈ jobs, job.id = id

theorem stable_returned (workerId : WorkerId) (jobs : List Job) :
    Stable (spec cond) t (Returned t workerId jobs) := by
  refine (Stable.all fun job => Stable.imp
    (Stable.entry (lasting_handedOut t workerId job) job.id)).and (Stable.entries ?_ ?_)
  · intro id c s m op e e' hne _ heff hR holder pass hmem
    rw [heff.applies.log, List.mem_append, Option.mem_toList] at hmem
    rcases hmem with hnew | hold
    · exact absurd (heff.event_tx hnew rfl).1.symm hne
    · exact hR holder pass hold
  · intro c s m id e _ hcreated holder pass hmem
    rw [hcreated.log, List.mem_singleton] at hmem
    cases hmem

theorem triple_claimJobs :
    Triple (spec cond) (.claimJobs a) t (fun m => Unlocked t m ∧ Unrecorded t m)
      (ExecutionService.claimJobs t a) fun jobs m => Unlocked t m ∧ Returned t a.workerId jobs m := by
  have hsound := spec_sound cond
  refine .bind hsound (triple_begin (stable_unlocked.and stable_unrecorded)) fun now => ?_
  refine .bind hsound triple_claimBatch fun jobs => ?_
  refine Triple.exists_pre fun L => Triple.assuming (fun m h => h.1) fun hjobs => ?_
  subst hjobs
  rw [List.append_nil]
  refine .bind hsound ((triple_startAttempts L []).pre fun m _ _ _ _ h => ?_) fun _ => ?_
  · rw [List.append_nil]
    exact ⟨by simpa using h.2.batch, trivial, h.2.fresh, h.2.ready⟩
  · rw [List.append_nil]
    have hkept : Stable (spec cond) t (Kept cond t now L fun _ => True) :=
      stable_kept _ (Stable.const True)
    refine .bind hsound (triple_commit ((stable_batch _).and hkept)
      (stable_unlocked.and (stable_returned a.workerId (L.map (claimedJob t a now)))) ?_ ?_)
      fun _ => ?_
    · intro m hat ⟨hbatch, hkept⟩ id e' hp
      rcases hbatch.pending hp with ⟨e, hmem, rfl, he⟩ | hbase
      swap
      · exact .inl hbase
      obtain ⟨x, hx, heq⟩ := List.mem_map.mp hmem
      obtain ⟨rfl, rfl⟩ := Prod.mk.inj heq
      obtain ⟨hpending, hdue, hdeps⟩ := hkept.ready x hx
      exact .inr (.inl ⟨x.1, _, he, .claim a now x.2,
        .claim t a.workerId a.leaseSeconds now x.2 x.1 hpending hdue,
        hkept.fresh _ _ he, hdeps⟩)
    · intro m hat ⟨hbatch, hkept⟩
      refine ⟨unlocked_commit m, ?_, ?_⟩
      · intro job hjob
        obtain ⟨x, hx, rfl⟩ := List.mem_map.mp hjob
        obtain ⟨hp, he⟩ := hbatch.held _ (List.mem_map_of_mem hx)
        have hcommit := congrArg Txn.Cell.committed (Txn.Store.commit_cell_held hp)
        refine ⟨(claimedRow t a now x).2, hcommit, ⟨x.2, List.mem_cons_self⟩, rfl, rfl, ?_⟩
        have hcount := (hat.inv.ok _ _ he).row.attempts
        change 1 ≤ x.1.job.attemptCount + 1
        change 0 ≤ x.1.job.attemptCount at hcount
        omega
      · intro id e he holder pass hmem
        by_cases hheld : ∃ v, (m.cell (.job id)).pending = some (t, v)
        · obtain ⟨v, hv⟩ := hheld
          rcases hbatch.pending hv with ⟨b, hb, hid, -⟩ | hbase
          · obtain ⟨x, hx, heq⟩ := List.mem_map.mp hb
            obtain rfl : x.1 = b := congrArg Prod.fst heq
            exact ⟨_, List.mem_map_of_mem hx, hid⟩
          · rw [committedJob, Txn.Store.commit_cell_held hv] at he
            exact absurd rfl (hkept.fresh id v hbase _ (Option.some.inj he ▸ hmem))
        · simp only [not_exists] at hheld
          rw [committedJob, Txn.Store.commit_cell_other hheld] at he
          exact absurd rfl (hkept.fresh id e he _ hmem)
    · have hret : Stable (spec cond) t fun m => Unlocked t m ∧
          Returned t a.workerId (L.map (claimedJob t a now)) m :=
        stable_unlocked.and (stable_returned _ _)
      refine .bind hsound (triple_rollback hret hret fun m _ h => ?_) fun _ =>
        .pure hret fun m h => h
      rw [Txn.Store.rollback_eq_self h.1]
      exact h

end Commit

end Chronos
