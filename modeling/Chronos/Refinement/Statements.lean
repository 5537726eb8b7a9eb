import Chronos.Refinement.Rules

namespace Chronos

open Txn (TxId Stable Triple stmt)

variable {cond : Conditions} {c : Call} {t : TxId}

-- Where a statement of `t` executes.
structure At (cond : Conditions) (t : TxId) (m : Db) : Prop where
  wf : m.WF
  inv : DbInv cond m
  caps : CapsFixed cond m
  opened : t ∈ m.opened

section Rules

variable {β : Type} {P : Db → Prop}

theorem triple_stmt {st : Txn.Stmt Key Row Time β} {R : β → Db → Prop} (hst : Stable (spec cond) t P)
    (hstR : ∀ r, Stable (spec cond) t (R r)) (hskip : ∀ r, st.skipped ≠ some r)
    (hrun : ∀ m r m', At cond t m → P m → Txn.exec t st m = some (r, m') →
      Permits cond c t st m → Guar cond c t m m' ∧ R r m') :
    Triple (spec cond) c t P (stmt st) R :=
  Triple.stmt hst hstR
    (fun m r m' hwf hinv ha ho hP he hperm => hrun m r m' ⟨hwf, hinv, ha, ho⟩ hP he hperm)
    (fun _ r _ _ _ _ _ hs => absurd hs (hskip r)) (spec_sound cond)

theorem triple_begin (hst : Stable (spec cond) t P) :
    Triple (spec cond) c t P (stmt .begin) fun _ => P := by
  refine triple_stmt hst (fun _ => hst) (by simp [Txn.Stmt.skipped]) fun m r m' hat hP he _ => ?_
  simp only [Txn.exec, Option.some.injEq, Prod.mk.injEq] at he
  exact he.2 ▸ ⟨.refl, hP⟩

theorem triple_select {query : Snapshot → β} {R : β → Db → Prop} (hst : Stable (spec cond) t P)
    (hstR : ∀ r, Stable (spec cond) t (R r))
    (h : ∀ m, At cond t m → P m → R (query (m.view t)) m) :
    Triple (spec cond) c t P (select query) R := by
  refine triple_stmt hst hstR (by simp [Txn.Stmt.skipped]) fun m r m' hat hP he _ => ?_
  simp only [Txn.exec, Option.some.injEq, Prod.mk.injEq] at he
  exact he.1 ▸ he.2 ▸ ⟨.refl, h m hat hP⟩

theorem triple_rollback {Q : Db → Prop} (hst : Stable (spec cond) t P)
    (hstQ : Stable (spec cond) t Q) (h : ∀ m, At cond t m → P m → Q (m.rollback t)) :
    Triple (spec cond) c t P (stmt .rollback) fun _ => Q := by
  refine triple_stmt hst (fun _ => hstQ) (by simp [Txn.Stmt.skipped]) fun m r m' hat hP he _ => ?_
  simp only [Txn.exec, Option.some.injEq, Prod.mk.injEq] at he
  exact he.2 ▸ ⟨.rollback hat.inv, h m hat hP⟩

-- COMMIT publishes what is pending: every row of it must be the effect of one operation.
theorem triple_commit {Q : Db → Prop} (hst : Stable (spec cond) t P)
    (hstQ : Stable (spec cond) t Q)
    (heff : ∀ m, At cond t m → P m → ∀ id e', pendingJob m id = some (t, e') →
      committedJob m id = some e' ∨
      (∃ e op, committedJob m id = some e ∧ Effect cond c t m op e e') ∨
      (committedJob m id = none ∧ Created c t m id e'))
    (h : ∀ m, At cond t m → P m → Q (m.commit t)) :
    Triple (spec cond) c t P (stmt .commit) fun _ => Q := by
  refine triple_stmt hst (fun _ => hstQ) (by simp [Txn.Stmt.skipped])
    fun m r m' hat hP he hperm => ?_
  simp only [Txn.exec, Option.some.injEq, Prod.mk.injEq] at he
  refine he.2 ▸ ⟨.commit hat.inv (heff m hat hP) fun q k hk => ?_, h m hat hP⟩
  by_cases hfixed : cond.fixed q
  · exact .inl ⟨hk.cap, hat.caps q k hfixed hk.cap⟩
  · exact hperm.installs .mk q k hfixed hk

theorem triple_updateJob {id : JobId} {guard : JobEntry → Bool} {set : JobEntry → JobEntry}
    {R : Option JobEntry → Db → Prop} (hst : Stable (spec cond) t P)
    (hstR : ∀ r, Stable (spec cond) t (R r))
    (hnone : ∀ m, At cond t m → P m →
      (∀ e, (m.cell (.job id)).seen t = some e → guard e = false) → R none m)
    (hsome : ∀ m e, At cond t m → P m → (m.cell (.job id)).seen t = some e → guard e = true →
      Permits cond c t (.update (Key.job id) guard set) m →
      Pended cond t m (m.own t (.job id) (set e)) id (set e) ∧
        R (some (set e)) (m.own t (.job id) (set e))) :
    Triple (spec cond) c t P (updateJob id guard set) R := by
  refine triple_stmt hst hstR (by simp [Txn.Stmt.skipped]) fun m r m' hat hP he hperm => ?_
  rcases Txn.exec_update he with ⟨rfl, rfl, hg⟩ | ⟨e, hseen, hg, -, rfl, rfl⟩
  · exact ⟨.refl, hnone _ hat hP hg⟩
  · obtain ⟨hpended, hR⟩ := hsome m e hat hP hseen hg hperm
    exact ⟨.own_job hpended, hR⟩

-- One row of an UPDATE of many: it is locked, and left as it is where the condition fails.
theorem triple_recheckJob {id : JobId} {guard : JobEntry → Bool} {set : JobEntry → JobEntry}
    {R : Option JobEntry → Db → Prop} (hst : Stable (spec cond) t P)
    (hstR : ∀ r, Stable (spec cond) t (R r)) (hnone : ∀ m, At cond t m → P m → R none m)
    (hkeep : ∀ m e, At cond t m → P m → (m.cell (.job id)).seen t = some e → guard e = false →
      R none (m.own t (.job id) e))
    (hsome : ∀ m e, At cond t m → P m → (m.cell (.job id)).seen t = some e → guard e = true →
      Permits cond c t (.recheck (Key.job id) guard set) m →
      Pended cond t m (m.own t (.job id) (set e)) id (set e) ∧
        R (some (set e)) (m.own t (.job id) (set e))) :
    Triple (spec cond) c t P (recheckJob id guard set) R := by
  refine triple_stmt hst hstR (by simp [Txn.Stmt.skipped]) fun m r m' hat hP he hperm => ?_
  rcases Txn.exec_recheck he with ⟨rfl, rfl, -⟩ | ⟨e, hseen, -, ⟨hg, rfl, rfl⟩ | ⟨hg, rfl, rfl⟩⟩
  · exact ⟨.refl, hnone _ hat hP⟩
  · exact ⟨.own_job (.updated e hseen (.refl e) fun h => h), hkeep m e hat hP hseen hg⟩
  · obtain ⟨hpended, hR⟩ := hsome m e hat hP hseen hg hperm
    exact ⟨.own_job hpended, hR⟩

theorem triple_lock {k : Key} {guard : Row k → Bool} {R : Option (Row k) → Db → Prop}
    (hst : Stable (spec cond) t P) (hstR : ∀ r, Stable (spec cond) t (R r))
    (hnone : ∀ m, At cond t m → P m → R none m)
    (hkeep : ∀ m v, At cond t m → P m → (m.cell k).seen t = some v →
      (m.cell k).freeFor t = true → guard v = false →
      Guar cond c t m (m.own t k v) ∧ R none (m.own t k v))
    (hsome : ∀ m v, At cond t m → P m → (m.cell k).seen t = some v →
      (m.cell k).freeFor t = true → guard v = true → Permits cond c t (.lock k guard) m →
      Guar cond c t m (m.own t k v) ∧ R (some v) (m.own t k v)) :
    Triple (spec cond) c t P (stmt (.lock k guard)) R := by
  refine Triple.stmt hst hstR (fun m r m' hwf hinv ha ho hP he hperm => ?_)
    (fun m r hwf hinv ha ho hP hs => ?_) (spec_sound cond)
  · rcases Txn.exec_lock he with ⟨rfl, rfl⟩ | ⟨v, hseen, hfree, rfl, ⟨hg, rfl⟩ | ⟨hg, rfl⟩⟩
    · exact ⟨.refl, hnone _ ⟨hwf, hinv, ha, ho⟩ hP⟩
    · exact hkeep m v ⟨hwf, hinv, ha, ho⟩ hP hseen hfree hg
    · exact hsome m v ⟨hwf, hinv, ha, ho⟩ hP hseen hfree hg hperm
  · simp only [Txn.Stmt.skipped, Option.some.injEq] at hs
    exact hs ▸ hnone m ⟨hwf, hinv, ha, ho⟩ hP

theorem triple_lockJob {id : JobId} {guard : JobEntry → Bool} {R : Option JobEntry → Db → Prop}
    (hst : Stable (spec cond) t P) (hstR : ∀ r, Stable (spec cond) t (R r))
    (hnone : ∀ m, At cond t m → P m → R none m)
    (hkeep : ∀ m e, At cond t m → P m → (m.cell (.job id)).seen t = some e →
      (m.cell (.job id)).freeFor t = true → guard e = false → R none (m.own t (.job id) e))
    (hsome : ∀ m e, At cond t m → P m → (m.cell (.job id)).seen t = some e →
      (m.cell (.job id)).freeFor t = true → guard e = true →
      Permits cond c t (.lock (Key.job id) guard) m → R (some e) (m.own t (.job id) e)) :
    Triple (spec cond) c t P (lockJob id guard) R :=
  triple_lock hst hstR hnone
    (fun m e hat hP hseen hfree hg =>
      ⟨.own_job (.updated e hseen (.refl e) fun h => h), hkeep m e hat hP hseen hfree hg⟩)
    fun m e hat hP hseen hfree hg hperm =>
      ⟨.own_job (.updated e hseen (.refl e) fun h => h), hsome m e hat hP hseen hfree hg hperm⟩

theorem triple_writeJob {id : JobId} {set : JobEntry → JobEntry} {R : Option JobEntry → Db → Prop}
    (hst : Stable (spec cond) t P) (hstR : ∀ r, Stable (spec cond) t (R r))
    (hnone : ∀ m, At cond t m → P m → (∀ e, pendingJob m id ≠ some (t, e)) → R none m)
    (hsome : ∀ m e, At cond t m → P m → pendingJob m id = some (t, e) →
      Permits cond c t (.write (Key.job id) set) m →
      Pended cond t m (m.own t (.job id) (set e)) id (set e) ∧
        R (some (set e)) (m.own t (.job id) (set e))) :
    Triple (spec cond) c t P (writeJob id set) R := by
  refine triple_stmt hst hstR (by simp [Txn.Stmt.skipped]) fun m r m' hat hP he hperm => ?_
  rcases Txn.exec_write he with ⟨rfl, rfl, hp⟩ | ⟨e, hp, rfl, rfl⟩
  · exact ⟨.refl, hnone _ hat hP hp⟩
  · obtain ⟨hpended, hR⟩ := hsome m e hat hP hp hperm
    exact ⟨.own_job hpended, hR⟩

theorem triple_insert {k : Key} {row : Row k} {clash : ∀ k, Row k → Bool} {R : Bool → Db → Prop}
    (hst : Stable (spec cond) t P) (hstR : ∀ r, Stable (spec cond) t (R r))
    (hfalse : ∀ m, At cond t m → P m → k ∉ m.keys → Txn.insertClashes t clash m = true →
      Permits cond c t (.insert k row clash) m → R false m)
    (htrue : ∀ m, At cond t m → P m → k ∉ m.keys → Txn.insertClashes t clash m = false →
      Txn.insertWaits clash m = false → Permits cond c t (.insert k row clash) m →
      Guar cond c t m (m.own t k row) ∧ R true (m.insert t k row)) :
    Triple (spec cond) c t P (stmt (.insert k row clash)) R := by
  refine triple_stmt hst hstR (by simp [Txn.Stmt.skipped]) fun m r m' hat hP he hperm => ?_
  obtain ⟨hk, ⟨rfl, rfl, hc⟩ | ⟨rfl, rfl, hc, hw⟩⟩ := Txn.exec_insert he
  · exact ⟨.refl, hfalse _ hat hP hk hc hperm⟩
  · obtain ⟨hg, hR⟩ := htrue m hat hP hk hc hw hperm
    exact ⟨hg.insert, hR⟩

-- Rows of the other tables.
def Aside (k : Key) : Prop :=
  (∀ id, Key.job id ≠ k) ∧ (∀ id, Key.queue id ≠ k) ∧ ∀ id, Key.project id ≠ k

theorem triple_updateAside {k : Key} {guard : Row k → Bool} {set : Row k → Row k}
    (hk : Aside k) (hst : Stable (spec cond) t P)
    (hown : ∀ m v, P m → P (m.own t k v)) :
    Triple (spec cond) c t P (stmt (.update k guard set)) fun _ => P := by
  refine triple_stmt hst (fun _ => hst) (by simp [Txn.Stmt.skipped]) fun m r m' hat hP he _ => ?_
  rcases Txn.exec_update he with ⟨rfl, rfl, -⟩ | ⟨v, -, -, -, -, rfl⟩
  · exact ⟨.refl, hP⟩
  · exact ⟨.own_other hk.1 hk.2.1 hk.2.2, hown m _ hP⟩

theorem triple_recheckAside {k : Key} {guard : Row k → Bool} {set : Row k → Row k}
    (hk : Aside k) (hst : Stable (spec cond) t P)
    (hown : ∀ m v, P m → P (m.own t k v)) :
    Triple (spec cond) c t P (stmt (.recheck k guard set)) fun _ => P := by
  refine triple_stmt hst (fun _ => hst) (by simp [Txn.Stmt.skipped]) fun m r m' hat hP he _ => ?_
  rcases Txn.exec_recheck he with ⟨-, rfl, -⟩ | ⟨v, -, -, ⟨-, -, rfl⟩ | ⟨-, -, rfl⟩⟩
  · exact ⟨.refl, hP⟩
  · exact ⟨.own_other hk.1 hk.2.1 hk.2.2, hown m _ hP⟩
  · exact ⟨.own_other hk.1 hk.2.1 hk.2.2, hown m _ hP⟩

end Rules

section Held

-- The rows of jobs that `t` has locked, each with what it is based on.
def Staged (t : TxId) (R : JobId → Option JobEntry → JobEntry → Prop) (m : Db) : Prop :=
  ∀ id e, pendingJob m id = some (t, e) → R id (committedJob m id) e

def NoJobs (t : TxId) (m : Db) : Prop := ∀ id e, pendingJob m id ≠ some (t, e)

-- `t` has locked nothing at all.
def Unlocked (t : TxId) (m : Db) : Prop := ∀ k v, (m.cell k).pending ≠ some (t, v)

-- `t` has one job locked, and this is its version of it.
def Holding (t : TxId) (id : JobId) (D : JobEntry → JobEntry → Prop) (m : Db) : Prop :=
  (∃ e', pendingJob m id = some (t, e') ∧ ∃ e, committedJob m id = some e ∧ D e e') ∧
    ∀ id' e', pendingJob m id' = some (t, e') → id' = id

theorem stable_held (id : JobId) (D : Option JobEntry → JobEntry → Prop) :
    Stable (spec cond) t fun m => ∀ e, pendingJob m id = some (t, e) → D (committedJob m id) e :=
  Stable.held (V := Row) (Key.job id) D

theorem stable_holds (id : JobId) (D : Option JobEntry → JobEntry → Prop) :
    Stable (spec cond) t fun m => ∃ e, pendingJob m id = some (t, e) ∧ D (committedJob m id) e :=
  Stable.holds (V := Row) (Key.job id) D

theorem stable_staged (R : JobId → Option JobEntry → JobEntry → Prop) :
    Stable (spec cond) t (Staged t R) :=
  Stable.all fun id => stable_held id (R id)

theorem stable_noJobs : Stable (spec cond) t (NoJobs t) :=
  Stable.all fun id => stable_held id fun _ _ => False

theorem stable_unlocked : Stable (spec cond) t (Unlocked t) :=
  Stable.all fun k => Stable.held k fun _ _ => False

theorem stable_holding (id : JobId) (D : JobEntry → JobEntry → Prop) :
    Stable (spec cond) t (Holding t id D) :=
  (stable_holds id fun base e' => ∃ e, base = some e ∧ D e e').and
    (Stable.all fun id' => stable_held id' fun _ _ => id' = id)

theorem Unlocked.noJobs {m : Db} (h : Unlocked t m) : NoJobs t m := fun id e => h (.job id) e

theorem Unlocked.seen {m : Db} (h : Unlocked t m) (k : Key) :
    (m.cell k).seen t = (m.cell k).committed :=
  Txn.Cell.seen_of_unheld (h k)

theorem unlocked_commit (m : Db) : Unlocked t (m.commit t) := m.commit_not_held t

theorem unlocked_rollback (m : Db) : Unlocked t (m.rollback t) := m.rollback_not_held t

theorem NoJobs.seen {m : Db} (h : NoJobs t m) (id : JobId) :
    (m.cell (.job id)).seen t = committedJob m id :=
  Txn.Cell.seen_of_unheld (h id)

theorem NoJobs.own {m : Db} {k : Key} {v : Row k} (hk : ∀ id, Key.job id ≠ k) (h : NoJobs t m) :
    NoJobs t (m.own t k v) := by
  intro id e hp
  rw [pendingJob, Txn.Store.own_cell_ne t k v m (hk id)] at hp
  exact h id e hp

theorem NoJobs.insert {m : Db} {k : Key} (v : Row k) (hk : ∀ id, Key.job id ≠ k)
    (h : NoJobs t m) : NoJobs t (m.insert t k v) :=
  fun id e hp => h.own (v := v) hk id e hp

theorem NoJobs.holding {m : Db} {id : JobId} {D : JobEntry → JobEntry → Prop} {e e' : JobEntry}
    (h : NoJobs t m) (he : committedJob m id = some e) (hD : D e e') :
    Holding t id D (m.own t (.job id) e') := by
  refine ⟨⟨e', by rw [pendingJob, Txn.Store.own_cell_self], e, ?_, hD⟩, fun id' d hp => ?_⟩
  · rwa [committedJob, Txn.Store.own_committed]
  · by_contra hne
    rw [pendingJob, Txn.Store.own_cell_ne t _ _ m (by simpa using hne)] at hp
    exact h id' d hp

theorem Holding.own {m : Db} {id : JobId} {D D' : JobEntry → JobEntry → Prop} {d' : JobEntry}
    (h : Holding t id D m) (hD : ∀ e, committedJob m id = some e → D' e d') :
    Holding t id D' (m.own t (.job id) d') := by
  obtain ⟨⟨e', -, e, he, -⟩, honly⟩ := h
  refine ⟨⟨d', by rw [pendingJob, Txn.Store.own_cell_self], e, ?_, hD e he⟩, fun id' d hp => ?_⟩
  · rwa [committedJob, Txn.Store.own_committed]
  · by_contra hne
    rw [pendingJob, Txn.Store.own_cell_ne t _ _ m (by simpa using hne)] at hp
    exact hne (honly id' d hp)

variable {β : Type} {c : Call} {P N : Db → Prop}

-- The one UPDATE of a transaction that has locked nothing yet.
theorem triple_updateOne {id : JobId} {guard : JobEntry → Bool} {set : JobEntry → JobEntry}
    {D : JobEntry → JobEntry → Prop} (hP : Stable (spec cond) t P) (hN : Stable (spec cond) t N)
    (hnone : ∀ m, At cond t m → P m → (∀ e, committedJob m id = some e → guard e = false) → N m)
    (hsome : ∀ m e, At cond t m → P m → committedJob m id = some e → guard e = true →
      Permits cond c t (.update (Key.job id) guard set) m → D e (set e))
    (hsame : ∀ e : JobEntry, guard e = true → e.SameRow (set e))
    (hrun : ∀ e : JobEntry, guard e = true → (set e).job.status = .running → e.job.status = .running) :
    Triple (spec cond) c t (fun m => Unlocked t m ∧ P m) (updateJob id guard set)
      fun r m => match r with
        | none => Unlocked t m ∧ N m
        | some _ => Holding t id D m := by
  refine triple_updateJob (stable_unlocked.and hP) (fun r => ?_) ?_ ?_
  · cases r with
    | none => exact stable_unlocked.and hN
    | some e => exact stable_holding id D
  · intro m hat ⟨hfree, hp⟩ hguard
    exact ⟨hfree, hnone m hat hp fun e he => hguard e (by rwa [hfree.noJobs.seen])⟩
  · intro m e hat ⟨hfree, hp⟩ hseen hg hperm
    have he : committedJob m id = some e := by rwa [← hfree.noJobs.seen]
    exact ⟨.updated e hseen (hsame e hg) (hrun e hg),
      hfree.noJobs.holding he (hsome m e hat hp he hg hperm)⟩

theorem triple_writeOne {id : JobId} {set : JobEntry → JobEntry} {D E : JobEntry → JobEntry → Prop}
    (hD : ∀ e e', D e e' → E e (set e')) (hsame : ∀ e : JobEntry, e.SameRow (set e))
    (hrun : ∀ e : JobEntry, (set e).job.status = .running → e.job.status = .running) :
    Triple (spec cond) c t (Holding t id D) (writeJob id set) fun _ => Holding t id E := by
  refine triple_writeJob (stable_holding id D) (fun _ => stable_holding id E) ?_ ?_
  · intro m hat ⟨⟨e', hp, _⟩, _⟩ hnone
    exact absurd hp (hnone e')
  · intro m e' hat hhold hp _
    have hrow := hhold.1
    obtain ⟨d, hd, e, he, hde⟩ := hrow
    obtain rfl : d = e' := by
      rw [hd, Option.some.injEq, Prod.mk.injEq] at hp
      exact hp.2
    refine ⟨.updated d (Txn.Cell.seen_of_held hp) (hsame d) (hrun d), hhold.own fun e'' he'' => ?_⟩
    exact Option.some.inj (he''.symm.trans he) ▸ hD e d hde

theorem triple_commitOne {id : JobId} {D : JobEntry → JobEntry → Prop} {R : JobEntry → Prop}
    (hR : Lasting cond t R)
    (heff : ∀ m e e', At cond t m → committedJob m id = some e → D e e' →
      ∃ op, Effect cond c t m op e e')
    (hDR : ∀ e e', D e e' → R e') :
    Triple (spec cond) c t (Holding t id D) (stmt .commit)
      fun _ m => Unlocked t m ∧ ∃ e, committedJob m id = some e ∧ R e := by
  refine triple_commit (stable_holding id D) (stable_unlocked.and (Stable.entry hR id)) ?_ ?_
  · intro m hat ⟨⟨d, hd, e, he, hde⟩, honly⟩ id' e' hp
    obtain rfl := honly id' e' hp
    obtain rfl : d = e' := by
      rw [hd, Option.some.injEq, Prod.mk.injEq] at hp
      exact hp.2
    obtain ⟨op, hop⟩ := heff m e d hat he hde
    exact .inr (.inl ⟨e, op, he, hop⟩)
  · intro m hat ⟨⟨d, hd, e, he, hde⟩, honly⟩
    exact ⟨unlocked_commit m, d, by rw [committedJob, Txn.Store.commit_cell_held hd], hDR e d hde⟩

-- Leaving the session when nothing is open.
theorem triple_exit {a : β} {Q : Db → Prop} (hst : Stable (spec cond) t Q) :
    Triple (spec cond) c t (fun m => Unlocked t m ∧ Q m) (stmt .rollback >>= fun _ => pure a)
      fun a' m => a' = a ∧ Unlocked t m ∧ Q m := by
  have hall : Stable (spec cond) t fun m => Unlocked t m ∧ Q m := stable_unlocked.and hst
  refine .bind (spec_sound cond) (triple_rollback hall hall ?_) fun _ => .pure hall fun _ h => ⟨rfl, h⟩
  intro m hat h
  rw [Txn.Store.rollback_eq_self h.1]
  exact h

end Held

end Chronos
