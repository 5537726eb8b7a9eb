import Chronos.Refinement.Statements
import Chronos.Repositories.Jobs

namespace Chronos

open Txn (TxId Stable Triple)

variable {cond : Conditions} {c : Call} {t : TxId}

-- The jobs `t` has locked: for each of the batch the committed entry and the version `t` has of it.
-- The rest are rows that were not fit any more when they were locked, and are as they were.
structure Batch (t : TxId) (rows : List (JobEntry × JobEntry)) (m : Db) : Prop where
  held : ∀ p ∈ rows, pendingJob m p.1.job.id = some (t, p.2) ∧
    committedJob m p.1.job.id = some p.1
  only : ∀ id e', pendingJob m id = some (t, e') →
    (∃ p ∈ rows, p.1.job.id = id) ∨ committedJob m id = some e'
  nodup : (rows.map fun p => p.1.job.id).Nodup

theorem stable_batch (rows : List (JobEntry × JobEntry)) : Stable (spec cond) t (Batch t rows) := by
  have hheld : Stable (spec cond) t fun m => ∀ p ∈ rows, ∃ e',
      pendingJob m p.1.job.id = some (t, e') ∧
        (e' = p.2 ∧ committedJob m p.1.job.id = some p.1) :=
    Stable.all fun p => Stable.imp (stable_holds p.1.job.id fun base e' =>
      e' = p.2 ∧ base = some p.1)
  have honly : Stable (spec cond) t fun m => ∀ id e', pendingJob m id = some (t, e') →
      (∃ p ∈ rows, p.1.job.id = id) ∨ committedJob m id = some e' :=
    Stable.all fun id => stable_held id fun base e' => (∃ p ∈ rows, p.1.job.id = id) ∨ base = some e'
  intro m m' hwf hinv hi h
  refine ⟨fun p hp => ?_, honly m m' hwf hinv hi h.only, h.nodup⟩
  obtain ⟨e', hpend, rfl, hc⟩ := hheld m m' hwf hinv hi
    (fun p hp => ⟨p.2, (h.held p hp).1, rfl, (h.held p hp).2⟩) p hp
  exact ⟨hpend, hc⟩

namespace Batch

variable {rows rows' : List (JobEntry × JobEntry)} {m : Db}

theorem nil (h : NoJobs t m) : Batch t [] m :=
  ⟨fun _ hp => absurd hp List.not_mem_nil, fun id e' hp => absurd hp (h id e'), List.nodup_nil⟩

theorem perm (h : Batch t rows m) (hp : rows.Perm rows') : Batch t rows' m where
  held p hmem := h.held p (hp.mem_iff.mpr hmem)
  only id e' hpend :=
    (h.only id e' hpend).imp_left fun ⟨p, hmem, hid⟩ => ⟨p, hp.mem_iff.mp hmem, hid⟩
  nodup := (hp.map _).nodup_iff.mp h.nodup

-- A row that is not of the batch is as it is committed.
theorem seen_of_notMem (h : Batch t rows m) {id : JobId}
    (hid : ∀ p ∈ rows, p.1.job.id ≠ id) : (m.cell (.job id)).seen t = committedJob m id := by
  by_cases hheld : ∃ e, pendingJob m id = some (t, e)
  · obtain ⟨e, he⟩ := hheld
    rcases h.only id e he with ⟨p, hmem, heq⟩ | hbase
    · exact absurd heq (hid p hmem)
    · exact (Txn.Cell.seen_of_held he).trans hbase.symm
  · exact Txn.Cell.seen_of_unheld fun e he => hheld ⟨e, he⟩

theorem own_ne (h : Batch t rows m) {k : Key} {v : Row k} (hk : ∀ id, Key.job id ≠ k) :
    Batch t rows (m.own t k v) where
  held p hp := by
    rw [pendingJob, committedJob, Txn.Store.own_cell_ne t k v m (hk _)]
    exact h.held p hp
  only id e' hp := by
    rw [pendingJob, Txn.Store.own_cell_ne t k v m (hk _)] at hp
    rw [committedJob, Txn.Store.own_committed]
    exact h.only id e' hp
  nodup := h.nodup

-- A row is locked and left as it is.
theorem keep (h : Batch t rows m) {id : JobId} {e : JobEntry}
    (hseen : (m.cell (.job id)).seen t = some e) : Batch t rows (m.own t (.job id) e) := by
  by_cases hheld : ∃ v, pendingJob m id = some (t, v)
  · obtain ⟨v, hv⟩ := hheld
    obtain rfl : v = e := Option.some.inj ((Txn.Cell.seen_of_held hv).symm.trans hseen)
    rwa [Txn.Store.own_eq_self hv]
  · rw [not_exists] at hheld
    refine ⟨fun p hp => ?_, fun id' e' hp => ?_, h.nodup⟩
    · have hne : p.1.job.id ≠ id := by
        rintro rfl
        exact hheld p.2 (h.held p hp).1
      rw [pendingJob, committedJob, Txn.Store.own_cell_ne t _ _ m (by simpa using hne)]
      exact h.held p hp
    · rw [committedJob, Txn.Store.own_committed]
      by_cases heq : id' = id
      · subst heq
        rw [pendingJob, Txn.Store.own_cell_self, Option.some.injEq, Prod.mk.injEq] at hp
        exact .inr (hp.2 ▸ (Txn.Cell.seen_of_unheld hheld).symm.trans hseen)
      · rw [pendingJob, Txn.Store.own_cell_ne t _ _ m (by simpa using heq)] at hp
        exact h.only id' e' hp

theorem cons (h : Batch t rows m) {e e' : JobEntry} (hc : committedJob m e.job.id = some e)
    (hid : ∀ p ∈ rows, p.1.job.id ≠ e.job.id) :
    Batch t ((e, e') :: rows) (m.own t (.job e.job.id) e') where
  held p hp := by
    rw [committedJob, Txn.Store.own_committed]
    rcases List.mem_cons.mp hp with rfl | hp
    · exact ⟨by rw [pendingJob, Txn.Store.own_cell_self], hc⟩
    · have hne : p.1.job.id ≠ e.job.id := hid p hp
      rw [pendingJob, Txn.Store.own_cell_ne t _ _ m (by simpa using hne)]
      exact h.held p hp
  only id d hp := by
    by_cases heq : id = e.job.id
    · exact .inl ⟨(e, e'), List.mem_cons_self, heq.symm⟩
    · rw [pendingJob, Txn.Store.own_cell_ne t _ _ m (by simpa using heq)] at hp
      rw [committedJob, Txn.Store.own_committed]
      rcases h.only id d hp with ⟨p, hmem, hid⟩ | hbase
      · exact .inl ⟨p, List.mem_cons_of_mem _ hmem, hid⟩
      · exact .inr hbase
  nodup := by
    rw [List.map_cons, List.nodup_cons, List.mem_map]
    refine ⟨?_, h.nodup⟩
    rintro ⟨p, hp, heq⟩
    exact hid p hp heq

theorem replace {e d d' : JobEntry} (h : Batch t ((e, d) :: rows) m) :
    Batch t ((e, d') :: rows) (m.own t (.job e.job.id) d') where
  held p hp := by
    rw [committedJob, Txn.Store.own_committed]
    have hnodup := h.nodup
    rw [List.map_cons, List.nodup_cons, List.mem_map] at hnodup
    rcases List.mem_cons.mp hp with rfl | hp
    · exact ⟨by rw [pendingJob, Txn.Store.own_cell_self], (h.held (e, d) List.mem_cons_self).2⟩
    · have hne : p.1.job.id ≠ e.job.id := fun heq => hnodup.1 ⟨p, hp, heq⟩
      rw [pendingJob, Txn.Store.own_cell_ne t _ _ m (by simpa using hne)]
      exact h.held p (List.mem_cons_of_mem _ hp)
  only id d' hp := by
    by_cases heq : id = e.job.id
    · exact .inl ⟨_, List.mem_cons_self, heq.symm⟩
    · rw [pendingJob, Txn.Store.own_cell_ne t _ _ m (by simpa using heq)] at hp
      rw [committedJob, Txn.Store.own_committed]
      rcases h.only id d' hp with ⟨p, hmem, hid⟩ | hbase
      · rcases List.mem_cons.mp hmem with rfl | hmem
        · exact absurd hid.symm heq
        · exact .inl ⟨p, List.mem_cons_of_mem _ hmem, hid⟩
      · exact .inr hbase
  nodup := h.nodup

theorem pending (h : Batch t rows m) {id : JobId} {e' : JobEntry}
    (hp : pendingJob m id = some (t, e')) :
    (∃ e, (e, e') ∈ rows ∧ e.job.id = id ∧ committedJob m id = some e) ∨
      committedJob m id = some e' := by
  refine (h.only id e' hp).imp_left ?_
  rintro ⟨⟨e, d⟩, hmem, rfl⟩
  obtain ⟨hpend, hc⟩ := h.held (e, d) hmem
  obtain rfl : d = e' := by
    rw [hp, Option.some.injEq, Prod.mk.injEq] at hpend
    exact hpend.2.symm
  exact ⟨e, hmem, rfl, hc⟩

end Batch

-- The rows a scan finds are those of the snapshot that satisfy its condition.
theorem mem_jobsWhere {v : Snapshot} {guard : JobEntry → Bool} {p : JobId × JobEntry} :
    p ∈ v.jobsWhere guard ↔ Key.job p.1 ∈ v.keys ∧ v.job p.1 = some p.2 ∧ guard p.2 = true := by
  unfold Snapshot.jobsWhere Snapshot.jobIds
  rw [List.mem_filterMap]
  constructor
  · rintro ⟨id, hid, h⟩
    obtain ⟨e, he, h⟩ := Option.bind_eq_some_iff.mp h
    split at h
    · rename_i hg
      cases h
      exact ⟨mem_jobIds.mp hid, he, hg⟩
    · cases h
  · rintro ⟨hk, he, hg⟩
    refine ⟨p.1, mem_jobIds.mpr hk, ?_⟩
    rw [he, Option.bind_some, if_pos hg]

theorem length_jobsWhere (v : Snapshot) (c : JobEntry → Bool) :
    (v.jobsWhere c).length = v.jobIds.countP fun id => (v.job id).any c := by
  unfold Snapshot.jobsWhere
  induction v.jobIds with
  | nil => rfl
  | cons id ids ih =>
      rw [List.filterMap_cons, List.countP_cons, ← ih]
      cases hjob : v.job id with
      | none => simp
      | some e =>
          by_cases hc : c e = true
          · simp [hc]
          · simp [hc]

theorem nodup_jobIds {keys : List Key} (h : keys.Nodup) : (keys.filterMap Key.jobId).Nodup := by
  refine h.filterMap fun k k' id hk hk' => ?_
  cases k <;> cases k' <;> simp_all [Key.jobId]

-- The keys of what a filter keeps, each under its own.
theorem nodup_keyed {A B : Type} {keys : List A} (h : keys.Nodup) {f : A → Option (A × B)}
    (hf : ∀ a p, f a = some p → p.1 = a) : ((keys.filterMap f).map Prod.fst).Nodup := by
  induction keys with
  | nil => exact List.nodup_nil
  | cons a keys ih =>
      rw [List.nodup_cons] at h
      rw [List.filterMap_cons]
      cases ha : f a with
      | none => exact ih h.2
      | some p =>
          refine List.nodup_cons.mpr ⟨fun hmem => ?_, ih h.2⟩
          obtain ⟨q, hq, heq⟩ := List.mem_map.mp hmem
          obtain ⟨b, hb, hq⟩ := List.mem_filterMap.mp hq
          have hab : b = a := (hf b q hq).symm.trans (heq.trans (hf a p ha))
          exact h.1 (hab ▸ hb)

theorem nodup_rows {A B : Type} {keys : List A} (h : keys.Nodup) (row : A → Option B)
    (cond : B → Bool) : ((keys.filterMap fun a =>
      (row a).bind fun b => if cond b then some (a, b) else none).map Prod.fst).Nodup := by
  refine nodup_keyed h fun a p hp => ?_
  obtain ⟨b, -, hp⟩ := Option.bind_eq_some_iff.mp hp
  split at hp
  · cases hp
    rfl
  · cases hp

theorem nodup_jobsWhere {v : Snapshot} (h : v.keys.Nodup) (guard : JobEntry → Bool) :
    ((v.jobsWhere guard).map Prod.fst).Nodup :=
  nodup_rows (nodup_jobIds h) v.job guard

section LockRows

-- The row of an entry locked and not touched yet.
def untouched (e : JobEntry) : JobEntry × JobEntry := (e, e)

-- SELECT … FOR UPDATE SKIP LOCKED: `I` is known of the candidates, `Φ` of every row locked,
-- and `J` of the state throughout. The rows that `t` has changed before do not qualify.
structure LockRules (cond : Conditions) (c : Call) (t : TxId) (guard : JobEntry → Bool)
    (I : JobId → Db → Prop) (Φ : JobEntry → Db → Prop) (J : Db → Prop)
    (done : List (JobEntry × JobEntry)) : Prop where
  stableI : ∀ id, Stable (spec cond) t (I id)
  stableΦ : ∀ e, Stable (spec cond) t (Φ e)
  stableJ : Stable (spec cond) t J
  lock : ∀ m id e, At cond t m → I id m → J m → committedJob m id = some e →
    (m.cell (.job id)).seen t = some e → (m.cell (.job id)).freeFor t = true → guard e = true →
      Permits cond c t (.lock (Key.job id) guard) m → Φ e m
  ownI : ∀ id m i (v : JobEntry), I id m → I id (m.own t (.job i) v)
  ownΦ : ∀ e m i (v : JobEntry), Φ e m → Φ e (m.own t (.job i) v)
  ownJ : ∀ m (e : JobEntry), At cond t m → J m → committedJob m e.job.id = some e →
    pendingJob m e.job.id = none → J (m.own t (.job e.job.id) e)
  done : ∀ p ∈ done, guard p.2 = false

-- Some of the candidates are locked, the others to come.
structure Locking (t : TxId) (I : JobId → Db → Prop) (Φ : JobEntry → Db → Prop) (J : Db → Prop)
    (done : List (JobEntry × JobEntry)) (acc : List JobEntry) (ids : List JobId) (m : Db) : Prop where
  batch : Batch t (acc.map untouched ++ done) m
  also : J m
  locked : ∀ e ∈ acc, Φ e m
  candidates : ∀ id ∈ ids, I id m

variable {guard : JobEntry → Bool} {I : JobId → Db → Prop} {Φ : JobEntry → Db → Prop}
  {J : Db → Prop} {done : List (JobEntry × JobEntry)} {acc : List JobEntry} {id : JobId}
  {ids : List JobId} {m : Db} {e : JobEntry}

theorem LockRules.stable (h : LockRules cond c t guard I Φ J done) (acc : List JobEntry)
    (ids : List JobId) : Stable (spec cond) t (Locking t I Φ J done acc ids) :=
  fun m m' hwf hinv hi hl =>
    ⟨stable_batch _ m m' hwf hinv hi hl.batch, h.stableJ m m' hwf hinv hi hl.also,
      fun e he => h.stableΦ e m m' hwf hinv hi (hl.locked e he),
      fun id hid => h.stableI id m m' hwf hinv hi (hl.candidates id hid)⟩

-- What `t` locks as it is, it has locked before, or nobody has.
theorem LockRules.keepJ (h : LockRules cond c t guard I Φ J done) (hat : At cond t m) (hj : J m)
    (hseen : (m.cell (.job id)).seen t = some e) (hfree : (m.cell (.job id)).freeFor t = true) :
    J (m.own t (.job id) e) := by
  cases hp : pendingJob m id with
  | some p =>
      obtain ⟨s, v⟩ := p
      obtain rfl := Txn.Cell.freeFor_iff.mp hfree s v hp
      obtain rfl : v = e := Option.some.inj ((Txn.Cell.seen_of_held hp).symm.trans hseen)
      rwa [Txn.Store.own_eq_self hp]
  | none =>
      have hcommitted : committedJob m id = some e := (Txn.Cell.seen_of_free hp).symm.trans hseen
      obtain rfl := hat.inv.id id e hcommitted
      exact h.ownJ m e hat hj hcommitted hp

-- A candidate that does not qualify any more.
theorem LockRules.passOver (h : LockRules cond c t guard I Φ J done) (hat : At cond t m)
    (hl : Locking t I Φ J done acc (id :: ids) m) (hseen : (m.cell (.job id)).seen t = some e)
    (hfree : (m.cell (.job id)).freeFor t = true) :
    Locking t I Φ J done acc ids (m.own t (.job id) e) where
  batch := hl.batch.keep hseen
  also := h.keepJ hat hl.also hseen hfree
  locked d hd := h.ownΦ d m id e (hl.locked d hd)
  candidates id' hid' := h.ownI id' m id e (hl.candidates id' (List.mem_cons_of_mem _ hid'))

-- No row of the batch is locked a second time.
theorem LockRules.notMem (h : LockRules cond c t guard I Φ J done)
    (hl : Locking t I Φ J done acc (id :: ids) m) (hacc : ∀ e ∈ acc, e.job.id ∉ id :: ids)
    (hseen : (m.cell (.job id)).seen t = some e) (hguard : guard e = true) :
    ∀ p ∈ acc.map untouched ++ done, p.1.job.id ≠ id := by
  rintro p hp rfl
  rcases List.mem_append.mp hp with hacced | hdone
  · obtain ⟨d, hd, rfl⟩ := List.mem_map.mp hacced
    exact hacc d hd List.mem_cons_self
  · have hheld := hl.batch.held p hp
    rw [Txn.Cell.seen_of_held hheld.1, Option.some.injEq] at hseen
    rw [← hseen, h.done p hdone] at hguard
    cases hguard

-- A candidate that does.
theorem LockRules.take (h : LockRules cond c t guard I Φ J done) (hat : At cond t m)
    (hl : Locking t I Φ J done acc (id :: ids) m) (hids : id ∉ ids)
    (hacc : ∀ e ∈ acc, e.job.id ∉ id :: ids) (hseen : (m.cell (.job id)).seen t = some e)
    (hfree : (m.cell (.job id)).freeFor t = true) (hguard : guard e = true)
    (hperm : Permits cond c t (.lock (Key.job id) guard) m) :
    e.job.id ∉ ids ∧ Locking t I Φ J done (e :: acc) ids (m.own t (.job id) e) := by
  have hfresh := h.notMem hl hacc hseen hguard
  have hcommitted := (hl.batch.seen_of_notMem hfresh).symm.trans hseen
  have hphi := h.lock m id e hat (hl.candidates id List.mem_cons_self) hl.also hcommitted hseen
    hfree hguard hperm
  have hkept := h.keepJ hat hl.also hseen hfree
  obtain rfl := hat.inv.id id e hcommitted
  refine ⟨hids, hl.batch.cons hcommitted hfresh, hkept, fun d hd => ?_, fun id' hid' =>
    h.ownI id' m _ e (hl.candidates id' (List.mem_cons_of_mem _ hid'))⟩
  rcases List.mem_cons.mp hd with rfl | hd
  · exact h.ownΦ d m _ d hphi
  · exact h.ownΦ d m _ e (hl.locked d hd)

theorem triple_lockRow (h : LockRules cond c t guard I Φ J done) (hids : id ∉ ids)
    (hacc : ∀ e ∈ acc, e.job.id ∉ id :: ids) :
    Triple (spec cond) c t (Locking t I Φ J done acc (id :: ids)) (lockJob id guard)
      fun r m => match r with
        | none => Locking t I Φ J done acc ids m
        | some e => e.job.id ∉ ids ∧ Locking t I Φ J done (e :: acc) ids m := by
  refine triple_lockJob (h.stable acc (id :: ids)) (fun r => ?_) ?_ ?_ ?_
  · cases r with
    | none => exact h.stable acc ids
    | some e => exact (Stable.const _).and (h.stable (e :: acc) ids)
  · exact fun m _ hl => ⟨hl.batch, hl.also, hl.locked, fun id' hid' =>
      hl.candidates id' (List.mem_cons_of_mem _ hid')⟩
  · exact fun m e hat hl hseen hfree _ => h.passOver hat hl hseen hfree
  · exact fun m e hat hl hseen hfree hguard hperm =>
      h.take hat hl hids hacc hseen hfree hguard hperm

theorem triple_lockRows (h : LockRules cond c t guard I Φ J done) (n : Nat) (ids : List JobId)
    (acc : List JobEntry) (hids : ids.Nodup) (hacc : ∀ e ∈ acc, e.job.id ∉ ids) :
    Triple (spec cond) c t (Locking t I Φ J done acc ids) (JobRepository.lockRows guard n ids)
      fun rows m => rows.length ≤ n ∧ Locking t I Φ J done (rows ++ acc) [] m := by
  have hsound := spec_sound cond
  have hleave : ∀ {acc ids m}, Locking t I Φ J done acc ids m → Locking t I Φ J done acc [] m :=
    fun hl => ⟨hl.batch, hl.also, hl.locked, nofun⟩
  induction ids generalizing n acc with
  | nil =>
      have hnil : JobRepository.lockRows guard n [] = pure [] := by cases n <;> rfl
      rw [hnil]
      exact .pure (h.stable acc []) fun m hl => ⟨Nat.zero_le n, hl⟩
  | cons id ids ih =>
      cases n with
      | zero => exact .pure (h.stable acc (id :: ids)) fun m hl => ⟨Nat.le_refl 0, hleave hl⟩
      | succ n =>
          rw [List.nodup_cons] at hids
          refine .bind hsound (triple_lockRow h hids.1 hacc) fun r => ?_
          cases r with
          | none =>
              exact ih (n + 1) acc hids.2 fun e he hmem => hacc e he (List.mem_cons_of_mem _ hmem)
          | some e =>
              refine Triple.assuming (fun m hl => hl.1) fun he => ?_
              refine .bind hsound ((ih n (e :: acc) hids.2 ?_).pre fun m _ _ _ _ hl => hl.2)
                fun rows => ?_
              · intro d hd
                rcases List.mem_cons.mp hd with rfl | hd
                · exact he
                · exact fun hmem => hacc d hd (List.mem_cons_of_mem _ hmem)
              · have hperm : (rows ++ e :: acc).Perm (e :: rows ++ acc) := List.perm_middle
                refine .pure ((Stable.const _).and (h.stable _ [])) fun m ⟨hlen, hl⟩ => ?_
                exact ⟨Nat.succ_le_succ hlen, hl.batch.perm ((hperm.map _).append_right _), hl.also,
                  fun d hd => hl.locked d (hperm.mem_iff.mpr hd), nofun⟩

end LockRows

-- One write to the first row of the batch.
theorem triple_writeBatch {e d : JobEntry} {rows : List (JobEntry × JobEntry)}
    {set : JobEntry → JobEntry} {J K : Db → Prop} (hJ : Stable (spec cond) t J)
    (hK : Stable (spec cond) t K)
    (hpended : ∀ m, At cond t m → J m → pendingJob m e.job.id = some (t, d) →
      Permits cond c t (.write (Key.job e.job.id) set) m →
      Pended cond t m (m.own t (.job e.job.id) (set d)) e.job.id (set d))
    (hown : ∀ m, At cond t m → J m → K (m.own t (.job e.job.id) (set d))) :
    Triple (spec cond) c t (fun m => Batch t ((e, d) :: rows) m ∧ J m) (writeJob e.job.id set)
      fun r m => r = some (set d) ∧ Batch t ((e, set d) :: rows) m ∧ K m := by
  refine triple_writeJob ((stable_batch _).and hJ)
    (fun r => (Stable.const _).and ((stable_batch _).and hK)) ?_ ?_
  · intro m hat ⟨hbatch, _⟩ hnone
    exact absurd (hbatch.held (e, d) List.mem_cons_self).1 (hnone d)
  · intro m d' hat ⟨hbatch, hj⟩ hp hperm
    have hheld := (hbatch.held (e, d) List.mem_cons_self).1
    obtain rfl : d = d' := by
      rw [hp, Option.some.injEq, Prod.mk.injEq] at hheld
      exact hheld.2.symm
    exact ⟨hpended m hat hj hp hperm, rfl, hbatch.replace, hown m hat hj⟩

-- A write that starts nothing.
theorem triple_rewriteBatch {e d : JobEntry} {rows : List (JobEntry × JobEntry)}
    {set : JobEntry → JobEntry} (hsame : d.SameRow (set d))
    (hrun : (set d).job.status = .running → d.job.status = .running) :
    Triple (spec cond) c t (Batch t ((e, d) :: rows)) (writeJob e.job.id set)
      fun _ => Batch t ((e, set d) :: rows) :=
  ((triple_writeBatch (J := fun _ => True) (K := fun _ => True) (Stable.const _) (Stable.const _)
    (fun _ _ _ hp _ => .updated d (Txn.Cell.seen_of_held hp) hsame hrun) fun _ _ _ => trivial).pre
      fun _ _ _ _ _ h => ⟨h, trivial⟩).post fun _ _ h => h.2.1

end Chronos
