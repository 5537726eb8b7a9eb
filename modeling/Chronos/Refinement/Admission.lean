import Chronos.Refinement.ClaimJobs
import Chronos.Txn.Observed

namespace Chronos

open JobRepository
open Txn (TxId Observed Steady)

variable {t : TxId} {a : ClaimArgs} {now : Time} {A : Db → Prop} {m : Db}

section Lengths

theorem yields_lockRows (cond : JobEntry → Bool) (n : Nat) (ids : List JobId) :
    (lockRows cond n ids).Yields fun E => E.length ≤ n := by
  induction ids generalizing n with
  | nil => cases n <;> exact Nat.zero_le _
  | cons id ids ih =>
      cases n with
      | zero => exact Nat.le_refl 0
      | succ n =>
          intro r
          cases r with
          | none => exact ih (n + 1)
          | some e => exact (ih n).bind fun E hE => Nat.succ_le_succ hE

theorem yields_updateCandidates (pass : Pass) (E : List JobEntry) :
    (updateCandidates t a now pass E).Yields fun jobs => jobs.length ≤ E.length := by
  induction E with
  | nil => exact Nat.le_refl 0
  | cons e E ih =>
      intro r
      refine ih.bind fun jobs hjobs => ?_
      cases r with
      | none => exact Nat.le_succ_of_le hjobs
      | some row => exact Nat.succ_le_succ hjobs

-- A pass returns at most as many jobs as it asks for.
theorem yields_claimWhere (pass : Pass) (scan : Snapshot → List JobId × (JobEntry → Bool))
    (n : Nat) : (claimWhere t a now pass scan n).Yields fun jobs => jobs.length ≤ n := by
  intro r
  refine (yields_lockRows r.2 n r.1).bind fun E hE => ?_
  exact (yields_updateCandidates pass E).mono fun jobs hjobs => hjobs.trans hE

theorem yields_claimFromQueues (rows : List (QueueId × Int)) (n : Nat) :
    (claimFromQueues t a now rows n).Yields fun jobs => jobs.length ≤ n := by
  induction rows generalizing n with
  | nil => exact Nat.zero_le n
  | cons r rows ih =>
      unfold claimFromQueues
      split
      · exact Nat.zero_le n
      · intro running
        show Txn.Prog.Yields _ (if min (r.2 - running) n ≤ 0 then _ else _)
        split
        · exact ih n
        · refine (yields_claimWhere _ _ _).bind fun batch hbatch => (ih _).bind fun rest hrest => ?_
          show (batch ++ rest).length ≤ n
          rw [List.length_append]
          omega

-- The remaining limit goes through both passes.
theorem yields_claimBatch :
    (claimBatch t a now).Yields fun jobs => jobs.length ≤ a.limit := by
  refine (yields_claimWhere _ _ _).bind fun claimed hclaimed => ?_
  dsimp only
  split
  · have hcapped : (claimCapped t a now (a.limit - claimed.length)).Yields
        fun jobs => jobs.length ≤ a.limit - claimed.length :=
      fun ids => Txn.Prog.yields_bind (fun rows => yields_claimFromQueues rows _) _
    refine hcapped.bind fun more hmore => ?_
    show (claimed ++ more).length ≤ a.limit
    rw [List.length_append]
    omega
  · exact hclaimed

end Lengths

-- The id of a job is the key of its row.
def JobsKeyed (v : Snapshot) : Prop := ∀ id e, v.job id = some e → e.job.id = id

def CappedAt (v : Snapshot) (q : QueueId) (cap : Int) : Prop :=
  ∃ row, v.queue q = some row ∧ row.maxConcurrency = some cap

-- Rows that the transaction holds, in these versions.
structure RowsHeld (t : TxId) (X : List JobEntry) (m : Db) : Prop where
  nodup : (X.map fun e => e.job.id).Nodup
  held : ∀ e ∈ X, m.mine t (.job e.job.id) = some e

theorem steady_rowsHeld (X : List JobEntry) : Steady t (RowsHeld t X) := by
  intro m m' ho h
  exact ⟨h.nodup, fun e he => ho.mine ▸ h.held e he⟩

theorem RowsHeld.nil (m : Db) : RowsHeld t [] m := ⟨List.nodup_nil, fun _ he => nomatch he⟩

theorem RowsHeld.perm {X Y : List JobEntry} (h : RowsHeld t X m) (hp : X.Perm Y) :
    RowsHeld t Y m where
  nodup := (hp.map _).nodup_iff.mp h.nodup
  held e he := h.held e (hp.mem_iff.mpr he)

theorem RowsHeld.tail {e : JobEntry} {X : List JobEntry} (h : RowsHeld t (e :: X) m) :
    RowsHeld t X m where
  nodup := (List.nodup_cons.mp h.nodup).2
  held x hx := h.held x (List.mem_cons_of_mem e hx)

-- One more row is written or locked.
theorem RowsHeld.own {X : List JobEntry} (h : RowsHeld t X m) {e : JobEntry}
    (hnew : e.job.id ∉ X.map fun e => e.job.id) :
    RowsHeld t (e :: X) (m.own t (.job e.job.id) e) where
  nodup := List.nodup_cons.mpr ⟨hnew, h.nodup⟩
  held x hx := by
    rcases List.mem_cons.mp hx with rfl | hx
    · exact Txn.mine_own_self _
    · have hne : Key.job x.job.id ≠ Key.job e.job.id := by
        intro heq
        exact hnew (Key.job.inj heq ▸ List.mem_map_of_mem hx)
      rw [Txn.mine_own_ne _ hne]
      exact h.held x hx

-- A row is locked and left as it is.
theorem RowsHeld.keep {X : List JobEntry} (h : RowsHeld t X m) {id : JobId} {e : JobEntry}
    (hseen : (m.cell (.job id)).seen t = some e) : RowsHeld t X (m.own t (.job id) e) where
  nodup := h.nodup
  held x hx := by
    have hheld := h.held x hx
    by_cases heq : x.job.id = id
    · subst heq
      obtain rfl : x = e := Option.some.inj ((Txn.seen_of_mine hheld).symm.trans hseen)
      exact Txn.mine_own_self _
    · rw [Txn.mine_own_ne _ (by simpa using heq)]
      exact hheld

section Passes

variable (hkeyed : ∀ m, A m → JobsKeyed (m.view t))

include hkeyed in
-- FOR UPDATE SKIP LOCKED: rows that satisfy the condition, each once.
theorem observed_lockRows {cond : JobEntry → Bool} (n : Nat) (ids : List JobId) (hids : ids.Nodup)
    (X : List JobEntry) (hX : ∀ x ∈ X, cond x = true → x.job.id ∉ ids) :
    Observed t A (RowsHeld t X) (lockRows cond n ids) fun E m =>
      (∀ e ∈ E, cond e = true) ∧ RowsHeld t (E ++ X) m := by
  induction ids generalizing n X with
  | nil =>
      cases n with
      | zero => exact .pure fun m h => ⟨by simp, h⟩
      | succ n => exact .pure fun m h => ⟨by simp, h⟩
  | cons id ids ih =>
      cases n with
      | zero => exact .pure fun m h => ⟨by simp, h⟩
      | succ n =>
          rw [List.nodup_cons] at hids
          refine .bind (.lock (R := fun e m => (e.job.id = id ∧ cond e = true) ∧
            RowsHeld t (e :: X) m) (steady_rowsHeld X) (fun m e _ _ hm hseen _ => hm.keep hseen)
            fun m e _ hA hm hseen hcond => ?_) fun r => ?_
          · have hid : e.job.id = id := hkeyed m hA id e hseen
            -- a row taken before does not satisfy the condition any more
            have hnew : e.job.id ∉ X.map fun e => e.job.id := by
              intro hmem
              obtain ⟨x, hx, hxid⟩ := List.mem_map.mp hmem
              have hsame := Txn.seen_of_mine (hm.held x hx)
              rw [hxid, hid, hseen] at hsame
              obtain rfl := Option.some.inj hsame
              exact hX e hx hcond (hid ▸ List.mem_cons_self)
            refine ⟨⟨hid, hcond⟩, ?_⟩
            have howned := hm.own hnew
            rwa [hid] at howned
          · cases r with
            | none =>
                refine (ih (n + 1) hids.2 X fun x hx hc hmem =>
                  hX x hx hc (List.mem_cons_of_mem _ hmem)).pre fun m h => ?_
                rcases h with ⟨-, h⟩ | ⟨e, hnone, -⟩
                · exact h
                · cases hnone
            | some e =>
                refine .via (fun m => (e.job.id = id ∧ cond e = true) ∧ RowsHeld t (e :: X) m)
                  (.given fun ⟨hid, hcond⟩ => ?_) fun m h => ?_
                · refine .bind (ih n hids.2 (e :: X) fun x hx hc hmem => ?_) fun E =>
                    .pure fun m h => ?_
                  · rcases List.mem_cons.mp hx with rfl | hx
                    · exact hids.1 (hid ▸ hmem)
                    · exact hX x hx hc (List.mem_cons_of_mem _ hmem)
                  · refine ⟨fun x hx => ?_, h.2.perm List.perm_middle⟩
                    rcases List.mem_cons.mp hx with rfl | hx
                    · exact hcond
                    · exact h.1 x hx
                · rcases h with ⟨hnone, -⟩ | ⟨e', hsome, h⟩
                  · cases hnone
                  · obtain rfl := Option.some.inj hsome
                    exact h

theorem observed_updateCandidates (pass : Pass) (E X : List JobEntry) :
    Observed t A (RowsHeld t (E ++ X)) (updateCandidates t a now pass E) fun jobs m =>
      jobs = E.map (fun e => (e.claim t a.workerId a.leaseSeconds now pass).job) ∧
        RowsHeld t (E.map (JobEntry.claim t a.workerId a.leaseSeconds now pass) ++ X) m := by
  induction E generalizing X with
  | nil => exact .pure fun m h => ⟨rfl, h⟩
  | cons e E ih =>
      let e' := e.claim t a.workerId a.leaseSeconds now pass
      refine .bind (.write (v := e) (Q := RowsHeld t (E ++ (e' :: X))) (steady_rowsHeld _)
        (fun m h => h.held e List.mem_cons_self) fun m h => ?_) fun row => .given fun hrow => ?_
      · have howned : RowsHeld t (e' :: (E ++ X)) (m.own t (.job e'.job.id) e') :=
          h.tail.own (List.nodup_cons.mp h.nodup).1
        exact howned.perm List.perm_middle.symm
      · subst hrow
        refine .bind (ih (e' :: X)) fun jobs => .pure fun m ⟨hjobs, h⟩ => ?_
        refine ⟨?_, h.perm List.perm_middle⟩
        rw [hjobs]
        rfl

-- The jobs taken so far: each is held, and RUNNING.
structure Flipped (t : TxId) (L : List JobEntry) (m : Db) : Prop extends RowsHeld t L m where
  running : ∀ e ∈ L, e.job.status = .running

theorem steady_flipped (L : List JobEntry) : Steady t (Flipped t L) :=
  fun m m' ho h => ⟨steady_rowsHeld L m m' ho h.toRowsHeld, h.running⟩

theorem Flipped.perm {L L' : List JobEntry} (h : Flipped t L m) (hp : L.Perm L') :
    Flipped t L' m :=
  ⟨h.toRowsHeld.perm hp, fun e he => h.running e (hp.mem_iff.mpr he)⟩

include hkeyed in
-- A pass takes jobs of the queues that its condition is about.
theorem observed_claimWhere {pass : Pass} {scan : Snapshot → List JobId × (JobEntry → Bool)}
    (ok : QueueId → Prop) (hscan : ∀ m : Db, m.WF → A m → (scan (m.view t)).1.Nodup ∧
      ∀ e, (scan (m.view t)).2 e = true → e.job.status = .pending ∧ ok e.job.queueId)
    (n : Nat) (L : List JobEntry) :
    Observed t A (Flipped t L) (claimWhere t a now pass scan n) fun jobs m => ∃ E,
      (jobs = E.map JobEntry.job ∧ ∀ e ∈ E, ok e.job.queueId) ∧ Flipped t (E ++ L) m := by
  refine .bind (.select (φ := fun r => r.1.Nodup ∧ ∀ e, r.2 e = true →
    e.job.status = .pending ∧ ok e.job.queueId) (steady_flipped L) hscan) fun r => ?_
  obtain ⟨ids, cond⟩ := r
  refine .given fun ⟨hids, hcond⟩ => ?_
  refine .via (fun m => (∀ e ∈ L, e.job.status = .running) ∧ RowsHeld t L m)
    (.given fun hrunning => ?_) fun m h => ⟨h.running, h.toRowsHeld⟩
  refine .bind (observed_lockRows hkeyed n ids hids L fun x hx hc => ?_) fun E =>
    .given fun hE => ?_
  · have hpending := (hcond x hc).1
    rw [hrunning x hx] at hpending
    cases hpending
  · refine (observed_updateCandidates pass E L).post fun jobs m ⟨hjobs, h⟩ => ?_
    refine ⟨E.map (JobEntry.claim t a.workerId a.leaseSeconds now pass), ⟨?_, ?_⟩, h, ?_⟩
    · rw [hjobs, List.map_map]
      rfl
    · intro e he
      obtain ⟨x, hx, rfl⟩ := List.mem_map.mp he
      exact (hcond x (hE x hx)).2
    · intro e he
      rcases List.mem_append.mp he with he | he
      · obtain ⟨x, -, rfl⟩ := List.mem_map.mp he
        rfl
      · exact hrunning e he

end Passes

section Capped

-- Whatever is found running at every step, the pass takes no more than it leaves of the cap.
def SharesWithin (A : Db → Prop) (t : TxId) (E : List JobEntry) (q : QueueId) (cap : Int) : Prop :=
  ∀ k : Int, (∀ m, A m → k ≤ countRunning q (m.view t)) →
    (E.countP fun e => e.job.queueId = q : Int) ≤ max 0 (cap - k)

theorem countP_of_none {E : List JobEntry} {q : QueueId} (h : ∀ e ∈ E, e.job.queueId ≠ q) :
    (E.countP fun e => e.job.queueId = q) = 0 := by
  rw [List.countP_eq_zero]
  intro e he
  simp [h e he]

theorem sharesWithin_of_none {E : List JobEntry} {q : QueueId} {cap : Int}
    (h : ∀ e ∈ E, e.job.queueId ≠ q) : SharesWithin A t E q cap := by
  intro k _
  have hzero := countP_of_none h
  omega

variable (hkeyed : ∀ m, A m → JobsKeyed (m.view t))

include hkeyed in
-- The loop over the capped queues, whatever their order: the limit is shared out, and each queue
-- gets its part once.
theorem observed_claimFromQueues (rows : List (QueueId × Int)) (hrows : (rows.map Prod.fst).Nodup)
    (n : Nat) (L : List JobEntry) :
    Observed t A (Flipped t L) (claimFromQueues t a now rows n) fun jobs m => ∃ E,
      (jobs = E.map JobEntry.job ∧ (∀ e ∈ E, e.job.queueId ∈ rows.map Prod.fst) ∧
        ∀ r ∈ rows, SharesWithin A t E r.1 r.2) ∧ Flipped t (E ++ L) m := by
  induction rows generalizing n L with
  | nil => exact .pure fun m h => ⟨[], ⟨rfl, by simp, by simp⟩, h⟩
  | cons r rows ih =>
      obtain ⟨q, cap⟩ := r
      obtain ⟨hq, hrows⟩ := List.nodup_cons.mp hrows
      have hnone : ∀ {E : List JobEntry}, (∀ e ∈ E, e.job.queueId ∈ rows.map Prod.fst) →
          ∀ e ∈ E, e.job.queueId ≠ q := fun h e he heq => hq (heq ▸ h e he)
      unfold claimFromQueues
      split
      · exact .pure fun m h => ⟨[], ⟨rfl, by simp, fun r _ => sharesWithin_of_none (by simp)⟩, h⟩
      · refine .bind (.select (φ := fun running => ∀ k : Int,
          (∀ m, A m → k ≤ countRunning q (m.view t)) → k ≤ running) (steady_flipped L)
          fun m _ hA k hk => hk m hA) fun running => .given fun hrunning => ?_
        dsimp only
        split
        · refine (ih hrows n L).post ?_
          rintro jobs m ⟨E, ⟨hjobs, hqueues, hshares⟩, h⟩
          refine ⟨E, ⟨hjobs, fun e he => List.mem_cons_of_mem _ (hqueues e he), ?_⟩, h⟩
          intro r hr
          rcases List.mem_cons.mp hr with rfl | hr
          · exact sharesWithin_of_none (hnone hqueues)
          · exact hshares r hr
        · rename_i hcapacity
          have hscan : ∀ m : Db, m.WF → A m → (cappedScan a now q (m.view t)).1.Nodup ∧
              ∀ e, (cappedScan a now q (m.view t)).2 e = true →
                e.job.status = .pending ∧ e.job.queueId = q := by
            intro m hwf _
            refine ⟨nodup_inOrder (nodup_jobsWhere hwf.nodup _), fun e he => ?_⟩
            simp only [cappedScan, cappedWhere, decide_eq_true_eq] at he
            exact ⟨he.1, he.2.2⟩
          refine .bind (.and_yields (yields_claimWhere _ _ _)
            (observed_claimWhere hkeyed (· = q) hscan _ L)) fun batch => .given fun hfirst =>
              .exists_pre fun E => .given ?_
          rintro ⟨rfl, hown⟩
          refine .bind (ih hrows _ (E ++ L)) fun rest => .exists_pre fun E' => .given ?_
          rintro ⟨rfl, hqueues, hshares⟩
          refine .pure fun m h => ?_
          rw [List.length_map] at hfirst
          have hperm : (E' ++ (E ++ L)).Perm ((E ++ E') ++ L) := by
            rw [← List.append_assoc]
            exact List.perm_append_comm.append_right L
          refine ⟨E ++ E', ⟨List.map_append.symm, ?_, ?_⟩, h.perm hperm⟩
          · intro e he
            rcases List.mem_append.mp he with he | he
            · exact hown e he ▸ List.mem_cons_self
            · exact List.mem_cons_of_mem _ (hqueues e he)
          · intro r hr k hk
            rw [List.countP_append, Nat.cast_add]
            rcases List.mem_cons.mp hr with rfl | hr
            · -- its own batch stays within the capacity, and no other visit takes from it
              have hzero := countP_of_none (hnone hqueues)
              have hle : (E.countP fun e => e.job.queueId = q) ≤ E.length := List.countP_le_length
              have hleast := hrunning k hk
              simp only [hzero]
              omega
            · have hne : ∀ e ∈ E, e.job.queueId ≠ r.1 := by
                intro e he heq
                exact hq (List.mem_map.mpr ⟨r, hr, heq.symm.trans (hown e he)⟩)
              have hzero := countP_of_none hne
              have hrest := hshares r hr k hk
              rw [hzero]
              omega

theorem Flipped.own_queue {L : List JobEntry} (h : Flipped t L m) (id : QueueId) (row : Queue) :
    Flipped t L (m.own t (.queue id) row) where
  nodup := h.nodup
  held e he := by
    rw [Txn.mine_own_ne _ (by simp)]
    exact h.held e he
  running := h.running

-- The queue rows that could be locked, each with the cap it was found with.
theorem observed_lockQueues (queues : List String) (ids : List QueueId) (L : List JobEntry) :
    Observed t A (Flipped t L) (lockQueues queues ids) fun rows m =>
      ((rows.map Prod.fst).Sublist ids ∧ ∀ r ∈ rows, ∃ m, A m ∧ CappedAt (m.view t) r.1 r.2) ∧
        Flipped t L m := by
  induction ids with
  | nil => exact .pure fun m h => ⟨⟨List.Sublist.slnil, by simp⟩, h⟩
  | cons id ids ih =>
      refine .bind (.lock_seen (steady_flipped L) fun m row h => h.own_queue id row) fun row =>
        .given fun hrow => .bind ih fun rest => .given fun ⟨hsub, hrest⟩ => .pure fun m h => ?_
      cases hcap : row.bind Queue.maxConcurrency with
      | none => exact ⟨⟨.cons id hsub, hrest⟩, h⟩
      | some cap =>
          obtain ⟨q, rfl, hq⟩ := Option.bind_eq_some_iff.mp hcap
          refine ⟨⟨.cons_cons id hsub, fun r hr => ?_⟩, h⟩
          rcases List.mem_cons.mp hr with rfl | hr
          · obtain ⟨m₀, hA, hseen⟩ := hrow q rfl
            exact ⟨m₀, hA, q, hseen, hq⟩
          · exact hrest r hr

theorem nodup_cappedQueues {v : Snapshot} (h : v.keys.Nodup) (queues : List String) :
    (cappedQueues queues v).Nodup := by
  rw [cappedQueues, (List.perm_insertionSort _ _).nodup_iff]
  refine List.Nodup.filter _ (h.filterMap fun k k' id hk hk' => ?_)
  cases k <;> cases k' <;> simp_all [Key.queueId]

include hkeyed in
theorem observed_claimCapped (n : Nat) (L : List JobEntry) :
    Observed t A (Flipped t L) (claimCapped t a now n) fun jobs m => ∃ E,
      (jobs = E.map JobEntry.job ∧ ∀ q cap, (∀ m, A m → CappedAt (m.view t) q cap) →
        SharesWithin A t E q cap) ∧ Flipped t (E ++ L) m := by
  refine .bind (.select (φ := List.Nodup) (steady_flipped L) fun m hwf _ =>
    nodup_cappedQueues hwf.nodup a.queues) fun ids => .given fun hids => ?_
  refine .bind (observed_lockQueues a.queues ids L) fun rows => .given fun ⟨hsub, hcaps⟩ => ?_
  refine (observed_claimFromQueues hkeyed rows (hids.sublist hsub) n L).post
    fun jobs m ⟨E, ⟨hjobs, hqueues, hshares⟩, h⟩ => ⟨E, ⟨hjobs, ?_⟩, h⟩
  intro q cap hq
  by_cases hmem : q ∈ rows.map Prod.fst
  · obtain ⟨r, hr, rfl⟩ := List.mem_map.mp hmem
    obtain ⟨m₀, hA, row, hrow, hcap⟩ := hcaps r hr
    obtain ⟨row', hrow', hcap'⟩ := hq m₀ hA
    obtain rfl := Option.some.inj (hrow.symm.trans hrow')
    obtain rfl := Option.some.inj (hcap.symm.trans hcap')
    exact hshares r hr
  · apply sharesWithin_of_none
    intro e he heq
    exact hmem (heq ▸ hqueues e he)

-- A queue that some step has found without a cap.
def FoundUncapped (A : Db → Prop) (t : TxId) (q : QueueId) : Prop :=
  ∃ m, A m ∧ ∀ cap, ¬ CappedAt (m.view t) q cap

theorem uncappedScan_found {v : Snapshot} (hv : v.keys.Nodup) : (uncappedScan a now v).1.Nodup ∧
    ∀ e, (uncappedScan a now v).2 e = true → e.job.status = .pending ∧
      ∀ cap, ¬ CappedAt v e.job.queueId cap := by
  refine ⟨nodup_inOrder (nodup_jobsWhere hv _), fun e he => ?_⟩
  obtain ⟨q, hq, he⟩ := (Option.any_eq_true _ _).mp he
  simp only [baseFilters, decide_eq_true_eq] at he
  refine ⟨he.1.1, ?_⟩
  rintro cap ⟨row, hrow, hcap⟩
  obtain rfl := Option.some.inj (hq.symm.trans hrow)
  rw [he.2] at hcap
  cases hcap

-- What claim_batch hands out: no job twice, and from a queue that every step finds capped no more
-- than the cap leaves.
structure Admits (A : Db → Prop) (t : TxId) (jobs : List Job) : Prop where
  distinct : (jobs.map Job.id).Nodup
  shares : ∀ q cap k, (∀ m, A m → CappedAt (m.view t) q cap ∧ k ≤ countRunning q (m.view t)) →
    (jobs.countP fun job => job.queueId = q : Int) ≤ max 0 (cap - k)

include hkeyed in
theorem observed_claimBatch : Observed t A (fun _ => True) (claimBatch t a now)
    fun jobs _ => Admits A t jobs := by
  have hscan : ∀ m : Db, m.WF → A m → (uncappedScan a now (m.view t)).1.Nodup ∧
      ∀ e, (uncappedScan a now (m.view t)).2 e = true → e.job.status = .pending ∧
        FoundUncapped A t e.job.queueId := by
    intro m hwf hA
    refine ⟨(uncappedScan_found hwf.nodup).1, fun e he => ?_⟩
    obtain ⟨hpending, hfound⟩ := (uncappedScan_found hwf.nodup).2 e he
    exact ⟨hpending, m, hA, hfound⟩
  have hdistinct : ∀ {E : List JobEntry} {m : Db}, Flipped t E m →
      ((E.map JobEntry.job).map Job.id).Nodup := by
    intro E m h
    rw [List.map_map]
    exact h.nodup
  have huncapped : ∀ {E : List JobEntry} {q cap}, (∀ e ∈ E, FoundUncapped A t e.job.queueId) →
      (∀ m, A m → CappedAt (m.view t) q cap) → ∀ e ∈ E, e.job.queueId ≠ q := by
    intro E q cap hE hq e he heq
    obtain ⟨m, hA, hnot⟩ := hE e he
    exact hnot cap (heq ▸ hq m hA)
  refine .via (Flipped t []) ?_ fun m _ => ⟨.nil m, fun _ he => nomatch he⟩
  refine .bind (observed_claimWhere hkeyed (FoundUncapped A t) hscan a.limit []) fun claimed =>
    .exists_pre fun E => .given fun ⟨hclaimed, hE⟩ => ?_
  subst hclaimed
  rw [List.append_nil]
  dsimp only
  split
  · refine .bind (observed_claimCapped hkeyed _ E) fun more => .exists_pre fun E' =>
      .given fun ⟨hmore, hshares⟩ => .pure fun m h => ?_
    subst hmore
    rw [← List.map_append]
    constructor
    · exact hdistinct (h.perm List.perm_append_comm)
    · intro q cap k hk
      have hzero := countP_of_none (huncapped hE fun m hA => (hk m hA).1)
      have hshare := hshares q cap (fun m hA => (hk m hA).1) k fun m hA => (hk m hA).2
      rw [List.countP_map, List.countP_append]
      simp only [Function.comp_def, hzero, Nat.zero_add]
      exact hshare
  · refine .pure fun m h => ⟨hdistinct h, fun q cap k hk => ?_⟩
    have hzero := countP_of_none (huncapped hE fun m hA => (hk m hA).1)
    rw [List.countP_map]
    simp only [Function.comp_def, hzero]
    omega

end Capped

section Alone

-- What the statements of a claim keep of a snapshot: the queues, and every job that runs.
structure ClaimKeeps (v₀ v : Snapshot) : Prop where
  keyed : JobsKeyed v
  queue : ∀ q, v.queue q = v₀.queue q
  running : ∀ q, countRunning q v₀ ≤ countRunning q v

theorem countRunning_put {v : Snapshot} {id : JobId} {e e' : JobEntry} (hrow : v.job id = some e)
    (hqueue : e'.job.queueId = e.job.queueId) (hstatus : e'.job.status = .running) (q : QueueId) :
    countRunning q v ≤ countRunning q (v.put (.job id) e') := by
  unfold countRunning
  rw [length_jobsWhere, length_jobsWhere]
  refine Int.ofNat_le.mpr (List.countP_mono_left fun i _ h => ?_)
  by_cases hi : i = id
  · subst hi
    rw [hrow, Option.any_some, decide_eq_true_eq] at h
    have hself : Snapshot.job (v.put (.job i) e') i = some e' := Txn.View.put_row_self _ _ v
    rw [hself, Option.any_some, decide_eq_true_eq]
    exact ⟨hqueue.trans h.1, hstatus⟩
  · have hother : Snapshot.job (v.put (.job id) e') i = v.job i :=
      Txn.View.put_row_ne _ v (by simpa using hi)
    rw [hother]
    exact h

theorem ClaimKeeps.claim {v₀ v : Snapshot} (h : ClaimKeeps v₀ v) {id : JobId} {e : JobEntry}
    (hrow : v.row (.job id) = some e) (pass : Pass) :
    ClaimKeeps v₀ (v.put (.job id) (e.claim t a.workerId a.leaseSeconds now pass)) where
  keyed i d hd := by
    by_cases hi : i = id
    · subst hi
      obtain rfl := Option.some.inj ((Txn.View.put_row_self _ _ v).symm.trans hd)
      exact h.keyed i e hrow
    · exact h.keyed i d ((Txn.View.put_row_ne _ v (by simpa using hi)).symm.trans hd)
  queue q := (Txn.View.put_row_ne _ v (by simp)).trans (h.queue q)
  running q := by
    have hqueue : (e.claim t a.workerId a.leaseSeconds now pass).job.queueId = e.job.queueId := rfl
    exact (h.running q).trans (countRunning_put hrow hqueue rfl q)

-- A statement of a claim: it never waits, and keeps this.
def Claims (t : TxId) (v₀ : Snapshot) {β : Type} (st : Txn.Stmt Key Row Time β) : Prop :=
  st.Ready ∧ st.Keeps t (ClaimKeeps v₀)

variable {v₀ : Snapshot}

theorem claims_lockRows (cond : JobEntry → Bool) (n : Nat) (ids : List JobId) :
    (lockRows cond n ids).All (Claims t v₀) := by
  induction ids generalizing n with
  | nil => cases n <;> trivial
  | cons id ids ih =>
      cases n with
      | zero => trivial
      | succ n =>
          refine ⟨⟨.lock _ _, Txn.Stmt.keeps_lock _ _⟩, fun r => ?_⟩
          cases r with
          | none => exact ih (n + 1)
          | some e => exact (ih n).bind fun _ => trivial

theorem claims_updateCandidates (pass : Pass) (E : List JobEntry) :
    (updateCandidates t a now pass E).All (Claims t v₀) := by
  induction E with
  | nil => trivial
  | cons e E ih =>
      refine ⟨⟨.write _ _, Txn.Stmt.keeps_write fun v row h hrow => h.claim hrow pass⟩, fun r => ?_⟩
      exact ih.bind fun _ => trivial

theorem claims_claimWhere (pass : Pass) (scan : Snapshot → List JobId × (JobEntry → Bool))
    (n : Nat) : (claimWhere t a now pass scan n).All (Claims t v₀) :=
  ⟨⟨.select _, Txn.Stmt.keeps_select _⟩, fun r =>
    (claims_lockRows r.2 n r.1).bind fun E => claims_updateCandidates pass E⟩

theorem claims_lockQueues (queues : List String) (ids : List QueueId) :
    (lockQueues queues ids).All (Claims t v₀) := by
  induction ids with
  | nil => trivial
  | cons id ids ih =>
      exact ⟨⟨.lock _ _, Txn.Stmt.keeps_lock _ _⟩, fun r => ih.bind fun _ => trivial⟩

theorem claims_claimFromQueues (rows : List (QueueId × Int)) (n : Nat) :
    (claimFromQueues t a now rows n).All (Claims t v₀) := by
  induction rows generalizing n with
  | nil => trivial
  | cons r rows ih =>
      unfold claimFromQueues
      split
      · trivial
      · refine .bind (.stmt ⟨.select _, Txn.Stmt.keeps_select _⟩) fun running => ?_
        dsimp only
        split
        · exact ih n
        · exact (claims_claimWhere _ _ _).bind fun batch => (ih _).bind fun _ => trivial

theorem claims_claimBatch : (claimBatch t a now).All (Claims t v₀) := by
  refine (claims_claimWhere _ _ _).bind fun claimed => ?_
  dsimp only
  split
  · refine .bind ⟨⟨.select _, Txn.Stmt.keeps_select _⟩, fun ids => ?_⟩ fun _ => trivial
    exact (claims_lockQueues _ _).bind fun rows => claims_claimFromQueues rows _
  · trivial

theorem claimKeeps_refl (h : JobsKeyed v₀) : ClaimKeeps v₀ v₀ :=
  ⟨h, fun _ => rfl, fun _ => Int.le_refl _⟩

-- claim_batch with nobody in between, whatever the store holds and whoever has rows of it locked.
theorem claimBatch_alone (a : ClaimArgs) (now : Time) (hwf : m.WF) (hkeyed : JobsKeyed (m.view t)) :
    ∃ jobs m', (claimBatch t a now).run t m = some (jobs, m') ∧ jobs.length ≤ a.limit ∧
      (jobs.map Job.id).Nodup ∧ ∀ q cap, CappedAt (m.view t) q cap →
        (jobs.countP fun job => job.queueId = q : Int) ≤
          max 0 (cap - countRunning q (m.view t)) := by
  obtain ⟨steps, jobs, m', hrun, hexecs, hsteps⟩ :=
    Txn.Execs.of_ready (p := claimBatch t a now) claims_claimBatch hwf (claimKeeps_refl hkeyed)
  obtain ⟨-, hadmits⟩ := observed_claimBatch (A := fun m' => ClaimKeeps (m.view t) (m'.view t))
    (fun _ h => h.keyed) m steps jobs m' hwf trivial hsteps hexecs
  refine ⟨jobs, m', hrun, hexecs.yields yields_claimBatch, hadmits.distinct, ?_⟩
  intro q cap ⟨row, hrow, hcap⟩
  exact hadmits.shares q cap _ fun _ h => ⟨⟨row, (h.queue q).trans hrow, hcap⟩, h.running q⟩

-- The loop of _claim_capped over any list of queues.
theorem claimFromQueues_alone (a : ClaimArgs) (now : Time) (rows : List (QueueId × Int))
    (hrows : (rows.map Prod.fst).Nodup) (remaining : Nat) (hwf : m.WF)
    (hkeyed : JobsKeyed (m.view t)) :
    ∃ jobs m', (claimFromQueues t a now rows remaining).run t m = some (jobs, m') ∧
      jobs.length ≤ remaining ∧ (jobs.map Job.id).Nodup ∧ ∀ r ∈ rows,
        (jobs.countP fun job => job.queueId = r.1 : Int) ≤
          max 0 (r.2 - countRunning r.1 (m.view t)) := by
  obtain ⟨steps, jobs, m', hrun, hexecs, hsteps⟩ :=
    Txn.Execs.of_ready (p := claimFromQueues t a now rows remaining)
      (claims_claimFromQueues rows remaining) hwf (claimKeeps_refl hkeyed)
  obtain ⟨-, E, ⟨rfl, -, hshares⟩, hflipped⟩ :=
    observed_claimFromQueues (A := fun m' => ClaimKeeps (m.view t) (m'.view t))
      (fun _ h => h.keyed) rows hrows remaining [] m steps jobs m' hwf
      ⟨.nil m, fun _ he => nomatch he⟩ hsteps hexecs
  refine ⟨_, m', hrun, hexecs.yields (yields_claimFromQueues rows remaining), ?_, ?_⟩
  · rw [List.append_nil] at hflipped
    rw [List.map_map]
    exact hflipped.nodup
  · intro r hr
    rw [List.countP_map]
    exact hshares r hr _ fun _ h => h.running r.1

end Alone

end Chronos
