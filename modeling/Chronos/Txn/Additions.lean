import Chronos.Txn.Triple

namespace Txn

variable {K : Type} {V : K → Type} {T C : Type} {α β : Type}

section Rows

-- A table with all the rows of another.
def Extends (rows rows' : ∀ k, Option (V k)) : Prop :=
  ∀ k v, rows k = some v → rows' k = some v

-- What is said of rows that are there. More rows do not change it.
def Upward (P : (∀ k, Option (V k)) → Prop) : Prop :=
  ∀ rows rows', Extends rows rows' → P rows → P rows'

namespace Upward

variable {P Q : (∀ k, Option (V k)) → Prop}

theorem const (p : Prop) : Upward fun _ : ∀ k, Option (V k) => p :=
  fun _ _ _ h => h

theorem row (k : K) (D : V k → Prop) :
    Upward fun rows : ∀ k, Option (V k) => ∃ v, rows k = some v ∧ D v := by
  intro rows rows' hext h
  obtain ⟨v, hv, hD⟩ := h
  exact ⟨v, hext k v hv, hD⟩

theorem and (hP : Upward P) (hQ : Upward Q) : Upward fun rows => P rows ∧ Q rows :=
  fun _ _ hext h => ⟨hP _ _ hext h.1, hQ _ _ hext h.2⟩

theorem all {ι : Sort*} {P : ι → (∀ k, Option (V k)) → Prop} (h : ∀ i, Upward (P i)) :
    Upward fun rows => ∀ i, P i rows :=
  fun _ _ hext hp i => h i _ _ hext (hp i)

theorem imp {p : Prop} (hP : Upward P) : Upward fun rows => p → P rows :=
  fun _ _ hext h hp => hP _ _ hext (h hp)

end Upward

theorem Upward.exists {ι : Sort*} {P : ι → (∀ k, Option (V k)) → Prop} (h : ∀ i, Upward (P i)) :
    Upward fun rows => ∃ i, P i rows := by
  intro rows rows' hext hp
  obtain ⟨i, hi⟩ := hp
  exact ⟨i, h i _ _ hext hi⟩

end Rows

namespace Store

variable {m : Store K V T} {t : TxId}

def stored (m : Store K V T) (k : K) : Option (V k) := (m.cell k).committed

-- Whatever is pending is a new row.
def Added (m : Store K V T) : Prop :=
  ∀ k s v, (m.cell k).pending = some (s, v) → (m.cell k).committed = none

theorem Added.extends_view (h : m.Added) (t : TxId) : Extends m.stored (m.view t).row := by
  intro k v hv
  have hunheld : ∀ w, (m.cell k).pending ≠ some (t, w) := by
    intro w hw
    have hnone := h k t w hw
    rw [stored, hnone] at hv
    cases hv
  show (m.cell k).seen t = some v
  rw [Cell.seen_of_unheld hunheld]
  exact hv

theorem view_extends_commit (m : Store K V T) (t : TxId) :
    Extends (m.view t).row (m.commit t).stored :=
  fun k _ hv => (m.commit_seen t k).trans hv

theorem Added.commit (h : m.Added) : (m.commit t).Added := by
  intro k s v hp
  by_cases hheld : ∃ w, (m.cell k).pending = some (t, w)
  · obtain ⟨w, hw⟩ := hheld
    rw [commit_cell_held hw] at hp
    cases hp
  · simp only [not_exists] at hheld
    rw [commit_cell_other hheld] at hp ⊢
    exact h k s v hp

theorem Added.rollback (h : m.Added) : (m.rollback t).Added := by
  intro k s v hp
  rw [rollback_committed]
  by_cases hheld : ∃ w, (m.cell k).pending = some (t, w)
  · obtain ⟨w, hw⟩ := hheld
    exact h k t w hw
  · simp only [not_exists] at hheld
    rw [rollback_cell_other hheld] at hp
    exact h k s v hp

theorem stored_rollback (m : Store K V T) (t : TxId) : (m.rollback t).stored = m.stored :=
  funext fun k => rollback_committed m t k

variable [DecidableEq K]

theorem Added.own (h : m.Added) {k : K} (v : V k) (hk : (m.cell k).committed = none) :
    (m.own t k v).Added := by
  intro k' s w hp
  rw [own_committed]
  by_cases heq : k' = k
  · subst heq
    exact hk
  · rw [own_cell_ne t k v m heq] at hp
    exact h k' s w hp

theorem stored_own (m : Store K V T) (t : TxId) (k : K) (v : V k) :
    (m.own t k v).stored = m.stored :=
  funext fun k' => own_committed t k v m k'

theorem view_own_self (m : Store K V T) (t : TxId) (k : K) (v : V k) :
    ((m.own t k v).view t).row k = some v := by
  show ((m.own t k v).cell k).seen t = some v
  rw [own_cell_self]
  exact Cell.seen_of_held rfl

theorem view_own_ne (m : Store K V T) (t : TxId) {k k' : K} (v : V k) (h : k' ≠ k) :
    ((m.own t k v).view t).row k' = (m.view t).row k' := by
  show ((m.own t k v).cell k').seen t = (m.cell k').seen t
  rw [own_cell_ne t k v m h]

theorem view_extends_insert (hwf : m.WF) {k : K} (v : V k) (hk : k ∉ m.keys) :
    Extends (m.view t).row ((m.insert t k v).view t).row := by
  intro k' w hw
  have hne : k' ≠ k := by
    rintro rfl
    exact hk (hwf.mem_of_seen (t := t) (by rw [show (m.cell k').seen t = some w from hw]; simp))
  exact (view_own_ne m t v hne).trans hw

end Store

-- Calls that add rows to a store and change none that is committed. `inv` is what they keep
-- of the store besides.
structure Adding (K : Type) (V : K → Type) (T : Type) (C : Type) (α : Type) [LE T] where
  admits : C → Store K V T → Prop
  permits : ∀ {β : Type}, C → TxId → Stmt K V T β → Store K V T → Prop
  inv : Store K V T → Prop
  post : C → TxId → α → Store K V T → Prop
  environment : ∀ m m', inv m → Environment m m' → inv m'
  commit : ∀ t m, inv m → inv (m.commit t)
  rollback : ∀ t m, inv m → inv (m.rollback t)

namespace Adding

variable [LE T] {A : Adding K V T C α} {c : C} {t : TxId}

def spec (A : Adding K V T C α) : Spec K V T C α where
  assume _ := True
  admits := A.admits
  permits := A.permits
  inv m := A.inv m ∧ m.Added
  guar _ _ m m' := (A.inv m' ∧ m'.Added) ∧ Extends m.stored m'.stored
  post := A.post

theorem sound : A.spec.Sound := fun _ _ _ _ _ _ _ _ _ _ hg _ => hg.1

theorem extends_of_interferes {m m' : Store K V T} (hi : Interferes A.spec t m m') :
    Extends m.stored m'.stored := by
  intro k v hv
  obtain ⟨-, -, -, henv | ⟨c, s, -, -, -, hg⟩⟩ := hi
  · rw [Store.stored, henv.cell]
    exact hv
  · exact hg.2 k v hv

theorem stable_stored {P : (∀ k, Option (V k)) → Prop} (hP : Upward P) :
    Stable A.spec t fun m => P m.stored :=
  fun _ _ _ _ hi h => hP _ _ (extends_of_interferes hi) h

theorem stable_view {P : (∀ k, Option (V k)) → Prop} (hP : Upward P) :
    Stable A.spec t fun m => P (m.view t).row := by
  intro m m' _ _ hi h
  refine hP _ _ (fun k v hv => ?_) h
  show (m'.cell k).seen t = some v
  by_cases hheld : ∃ w, (m.cell k).pending = some (t, w)
  · obtain ⟨w, hw⟩ := hheld
    rw [hi.cell_of_held hw]
    exact hv
  · have hunheld : ∀ w, (m.cell k).pending ≠ some (t, w) := not_exists.mp hheld
    have hv' : (m.cell k).committed = some v :=
      (Cell.seen_of_unheld hunheld).symm.trans hv
    rw [Cell.seen_of_unheld fun w hw => hunheld w (hi.held_iff.mpr hw)]
    exact extends_of_interferes hi k v hv'

-- Where a statement executes.
structure At (A : Adding K V T C α) (m : Store K V T) : Prop where
  wf : m.WF
  inv : A.inv m
  added : m.Added

theorem At.unchanged {m : Store K V T} (hat : A.At m) :
    (A.inv m ∧ m.Added) ∧ Extends m.stored m.stored :=
  ⟨⟨hat.inv, hat.added⟩, fun _ _ hv => hv⟩

variable [DecidableEq K]

-- A program of call `c` run as `t`, by what `t` sees before and after.
abbrev Does (A : Adding K V T C α) (c : C) (t : TxId) (P : (∀ k, Option (V k)) → Prop)
    (p : Prog K V T β) (Q : β → (∀ k, Option (V k)) → Prop) : Prop :=
  Triple A.spec c t (fun m => P (m.view t).row) p fun r m => Q r (m.view t).row

section Statements

variable {P : (∀ k, Option (V k)) → Prop} {B : Store K V T → Prop}

theorem triple_stmt {st : Stmt K V T β} {R : β → Store K V T → Prop} (hst : Stable A.spec t B)
    (hstR : ∀ r, Stable A.spec t (R r)) (hskip : ∀ r, st.skipped ≠ some r)
    (hrun : ∀ m r m', A.At m → B m → exec t st m = some (r, m') → A.permits c t st m →
      ((A.inv m' ∧ m'.Added) ∧ Extends m.stored m'.stored) ∧ R r m') :
    Triple A.spec c t B (stmt st) R :=
  Triple.stmt hst hstR
    (fun m r m' hwf hinv _ _ hB he hperm => hrun m r m' ⟨hwf, hinv.1, hinv.2⟩ hB he hperm)
    (fun _ r _ _ _ _ _ hs => absurd hs (hskip r)) sound

theorem triple_begin (hP : Upward P) :
    A.Does c t P (stmt .begin) fun _ => P := by
  refine triple_stmt (stable_view hP) (fun _ => stable_view hP) (by simp [Stmt.skipped])
    fun m r m' hat h he _ => ?_
  simp only [exec, Option.some.injEq, Prod.mk.injEq] at he
  obtain ⟨-, rfl⟩ := he
  exact ⟨hat.unchanged, h⟩

theorem triple_select {query : View K V → β} {Q : β → (∀ k, Option (V k)) → Prop}
    (hP : Upward P) (hQ : ∀ r, Upward (Q r))
    (h : ∀ m, A.At m → P (m.view t).row → Q (query (m.view t)) (m.view t).row) :
    A.Does c t P (stmt (.select query)) Q := by
  refine triple_stmt (stable_view hP) (fun r => stable_view (hQ r)) (by simp [Stmt.skipped])
    fun m r m' hat hp he _ => ?_
  simp only [exec, Option.some.injEq, Prod.mk.injEq] at he
  obtain ⟨rfl, rfl⟩ := he
  exact ⟨hat.unchanged, h m hat hp⟩

theorem triple_insert {k : K} {row : V k} {clash : ∀ k, V k → Bool}
    {Q : Bool → (∀ k, Option (V k)) → Prop} (hP : Upward P) (hQ : ∀ ok, Upward (Q ok))
    (hfalse : ∀ m, A.At m → P (m.view t).row → insertClashes t clash m = true →
      A.permits c t (.insert k row clash) m → Q false (m.view t).row)
    (hinv : ∀ m, A.At m → k ∉ m.keys → insertClashes t clash m = false →
      insertWaits clash m = false → A.inv (m.insert t k row))
    (htrue : ∀ rows, P rows → rows k = some row → Q true rows) :
    A.Does c t P (stmt (.insert k row clash)) Q := by
  refine triple_stmt (stable_view hP) (fun ok => stable_view (hQ ok)) (by simp [Stmt.skipped])
    fun m r m' hat hp he hperm => ?_
  obtain ⟨hk, ⟨rfl, rfl, hc⟩ | ⟨rfl, rfl, hc, hw⟩⟩ := exec_insert he
  · exact ⟨hat.unchanged, hfalse _ hat hp hc hperm⟩
  · have hnone : (m.cell k).committed = none := by
      rw [hat.wf.absent k hk]
      rfl
    have hadded : (m.insert t k row).Added := hat.added.own row hnone
    have hstored : (m.insert t k row).stored = m.stored := m.stored_own t k row
    refine ⟨⟨⟨hinv m hat hk hc hw, hadded⟩, hstored ▸ fun _ _ hv => hv⟩, ?_⟩
    exact htrue _ (hP _ _ (Store.view_extends_insert hat.wf row hk) hp) (m.view_own_self t k row)

theorem triple_write {k : K} {set : V k → V k} {Q : (∀ k, Option (V k)) → Prop}
    (hP : Upward P) (hQ : Upward Q) (hnone : ∀ rows, P rows → Q rows)
    (hinv : ∀ m v, A.At m → (m.cell k).pending = some (t, v) → A.inv (m.own t k (set v)))
    (hsome : ∀ rows rows' v, P rows → rows k = some v → rows' k = some (set v) →
      (∀ k', k' ≠ k → rows' k' = rows k') → Q rows') :
    A.Does c t P (stmt (.write k set)) fun _ => Q := by
  refine triple_stmt (stable_view hP) (fun _ => stable_view hQ) (by simp [Stmt.skipped])
    fun m r m' hat hp he _ => ?_
  rcases exec_write he with ⟨rfl, rfl, -⟩ | ⟨v, hv, rfl, rfl⟩
  · exact ⟨hat.unchanged, hnone _ hp⟩
  · refine ⟨⟨⟨hinv m v hat hv, hat.added.own _ (hat.added k t v hv)⟩, ?_⟩, ?_⟩
    · rw [Store.stored_own]
      exact fun _ _ hv => hv
    · exact hsome _ _ v hp (Cell.seen_of_held hv) (m.view_own_self t k (set v))
        fun k' hne => m.view_own_ne t (set v) hne

theorem triple_commit (hP : Upward P) :
    Triple A.spec c t (fun m => P (m.view t).row) (stmt .commit) fun _ m => P m.stored := by
  refine triple_stmt (stable_view hP) (fun _ => stable_stored hP) (by simp [Stmt.skipped])
    fun m r m' hat hp he _ => ?_
  simp only [exec, Option.some.injEq, Prod.mk.injEq] at he
  obtain ⟨-, rfl⟩ := he
  have hext := m.view_extends_commit t
  refine ⟨⟨⟨A.commit t m hat.inv, hat.added.commit⟩, fun k v hv => ?_⟩, hP _ _ hext hp⟩
  exact hext k v (hat.added.extends_view t k v hv)

theorem triple_rollback (hP : Upward P) :
    Triple A.spec c t (fun m => P m.stored) (stmt .rollback) fun _ m => P m.stored := by
  refine triple_stmt (stable_stored hP) (fun _ => stable_stored hP) (by simp [Stmt.skipped])
    fun m r m' hat hp he _ => ?_
  simp only [exec, Option.some.injEq, Prod.mk.injEq] at he
  obtain ⟨-, rfl⟩ := he
  rw [Store.stored_rollback]
  exact ⟨⟨⟨A.rollback t m hat.inv, hat.added.rollback⟩, fun _ _ hv => hv⟩, hp⟩

theorem does_pure {a : β} {Q : β → (∀ k, Option (V k)) → Prop} (hP : Upward P)
    (h : ∀ rows, P rows → Q a rows) : A.Does c t P (pure a) Q :=
  .pure (stable_view hP) fun _ hp => h _ hp

end Statements

-- The calls of a system are to be checked one by one.
theorem valid {sys : System K V T C α}
    (hstart : ∀ s t c, sys.may s c = true → A.admits c s.mem →
      Triple A.spec c t (fun m => m.stored = s.mem.stored) (sys.body t c) (A.post c t)) :
    A.spec.Valid sys where
  sound := sound
  environment m m' hwf hinv _ henv _ := by
    refine ⟨A.environment m m' hinv.1 henv, fun k s v hp => ?_⟩
    rw [henv.cell] at hp ⊢
    exact hinv.2 k s v hp
  abort c t m hwf hinv := by
    refine ⟨⟨A.rollback t m hinv.1, hinv.2.rollback⟩, ?_⟩
    rw [Store.stored_rollback]
    exact fun _ _ hv => hv
  start s t c hs hfresh hmay hadmits hinv hassume := by
    have hwf : (s.mem.openTx t).WF := ⟨hs.wf.nodup, hs.wf.absent⟩
    exact hstart s t c hmay hadmits _ hwf hinv hassume List.mem_cons_self rfl

end Adding

end Txn
