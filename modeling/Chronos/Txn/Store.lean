import Mathlib.Logic.Function.Basic
import Mathlib.Data.List.Basic

namespace Txn

abbrev TxId := Nat

-- One row of a READ COMMITTED store. A row lock is exclusive and lasts to the end of its
-- transaction, so there is at most one version besides the committed one: the lock holder's.
structure Cell (V : Type) where
  committed : Option V
  pending : Option (TxId × V)

namespace Cell

variable {V : Type}

def empty : Cell V := ⟨none, none⟩

-- What a statement of `t` sees: its own writes over everything committed.
def seen (t : TxId) (c : Cell V) : Option V :=
  match c.pending with
  | some (s, v) => if s = t then some v else c.committed
  | none => c.committed

def freeFor (t : TxId) (c : Cell V) : Bool :=
  match c.pending with
  | some (s, _) => s = t
  | none => true

def own (t : TxId) (v : V) (c : Cell V) : Cell V := ⟨c.committed, some (t, v)⟩

def publish (t : TxId) (c : Cell V) : Cell V :=
  match c.pending with
  | some (s, v) => if s = t then ⟨some v, none⟩ else c
  | none => c

def release (t : TxId) (c : Cell V) : Cell V :=
  match c.pending with
  | some (s, _) => if s = t then ⟨c.committed, none⟩ else c
  | none => c

-- Everything one statement of `t` can do to one row.
inductive Step (t : TxId) : Cell V → Cell V → Prop
  | keep (c : Cell V) : Step t c c
  | own (c : Cell V) (v : V) (hfree : c.freeFor t = true) : Step t c (c.own t v)
  | publish (base : Option V) (v : V) : Step t ⟨base, some (t, v)⟩ ⟨some v, none⟩
  | release (base : Option V) (v : V) : Step t ⟨base, some (t, v)⟩ ⟨base, none⟩

theorem seen_of_free {t : TxId} {c : Cell V} (h : c.pending = none) : c.seen t = c.committed := by
  simp [seen, h]

theorem seen_of_held {t : TxId} {c : Cell V} {v : V} (h : c.pending = some (t, v)) :
    c.seen t = some v := by
  simp [seen, h]

theorem seen_of_other {t s : TxId} {c : Cell V} {v : V} (h : c.pending = some (s, v))
    (hne : s ≠ t) : c.seen t = c.committed := by
  simp [seen, h, hne]

-- A row that `t` has not locked.
theorem seen_of_unheld {t : TxId} {c : Cell V} (h : ∀ v, c.pending ≠ some (t, v)) :
    c.seen t = c.committed := by
  cases hp : c.pending with
  | none => exact seen_of_free hp
  | some p =>
      obtain ⟨s, v⟩ := p
      refine seen_of_other hp ?_
      rintro rfl
      exact h v hp

-- What `t` sees is its own version, or the committed one.
theorem seen_cases {t : TxId} {c : Cell V} {v : V} (h : c.seen t = some v) :
    c.pending = some (t, v) ∨ c.committed = some v := by
  by_cases hheld : ∃ w, c.pending = some (t, w)
  · obtain ⟨w, hw⟩ := hheld
    rw [seen_of_held hw, Option.some.injEq] at h
    exact .inl (h ▸ hw)
  · rw [seen_of_unheld (not_exists.mp hheld)] at h
    exact .inr h

theorem freeFor_iff {t : TxId} {c : Cell V} :
    c.freeFor t = true ↔ ∀ s v, c.pending = some (s, v) → s = t := by
  unfold freeFor
  cases h : c.pending with
  | none => simp
  | some p =>
      obtain ⟨s, v⟩ := p
      simp

theorem publish_step (t : TxId) (c : Cell V) : Step t c (c.publish t) := by
  obtain ⟨base, pending⟩ := c
  cases pending with
  | none => exact .keep _
  | some p =>
      obtain ⟨s, v⟩ := p
      by_cases hs : s = t
      · subst hs
        simpa [Cell.publish] using Step.publish base v
      · simpa [Cell.publish, hs] using Step.keep (t := t) ⟨base, some (s, v)⟩

theorem release_step (t : TxId) (c : Cell V) : Step t c (c.release t) := by
  obtain ⟨base, pending⟩ := c
  cases pending with
  | none => exact .keep _
  | some p =>
      obtain ⟨s, v⟩ := p
      by_cases hs : s = t
      · subst hs
        simpa [Cell.release] using Step.release base v
      · simpa [Cell.release, hs] using Step.keep (t := t) ⟨base, some (s, v)⟩

-- A row locked by somebody else is untouched, and nobody else takes a lock for him.
theorem Step.other {t s : TxId} {c c' : Cell V} (h : Step t c c') (hne : s ≠ t) (v : V) :
    c.pending = some (s, v) ↔ c'.pending = some (s, v) := by
  cases h with
  | keep => exact Iff.rfl
  | own c w hfree =>
      have hf := freeFor_iff.mp hfree
      constructor
      · intro hp
        exact absurd (hf s v hp) hne
      · intro hp
        simp only [Cell.own, Option.some.injEq, Prod.mk.injEq] at hp
        exact absurd hp.1.symm hne
  | publish base w =>
      simp [Ne.symm hne]
  | release base w =>
      simp [Ne.symm hne]

theorem Step.frame {t s : TxId} {c c' : Cell V} {v : V} (h : Step t c c') (hne : s ≠ t)
    (hp : c.pending = some (s, v)) : c' = c := by
  cases h with
  | keep => rfl
  | own c w hfree => exact absurd (freeFor_iff.mp hfree s v hp) hne
  | publish base w =>
      simp only [Option.some.injEq, Prod.mk.injEq] at hp
      exact absurd hp.1.symm hne
  | release base w =>
      simp only [Option.some.injEq, Prod.mk.injEq] at hp
      exact absurd hp.1.symm hne

end Cell

-- A store: its rows (of several tables, so the row type depends on the key), the database
-- clock, and the transaction ids handed out so far.
structure Store (K : Type) (V : K → Type) (T : Type) where
  keys : List K
  cell : ∀ k, Cell (V k)
  clock : T
  opened : List TxId

-- The snapshot one statement works on.
structure View (K : Type) (V : K → Type) where
  keys : List K
  row : ∀ k, Option (V k)

namespace Store

variable {K : Type} {V : K → Type} {T : Type}

def empty (now : T) : Store K V T := ⟨[], fun _ => Cell.empty, now, []⟩

def view (t : TxId) (m : Store K V T) : View K V := ⟨m.keys, fun k => (m.cell k).seen t⟩

def commit (t : TxId) (m : Store K V T) : Store K V T :=
  { m with cell := fun k => (m.cell k).publish t }

def rollback (t : TxId) (m : Store K V T) : Store K V T :=
  { m with cell := fun k => (m.cell k).release t }

def openTx (t : TxId) (m : Store K V T) : Store K V T := { m with opened := t :: m.opened }

-- Each row is listed once, and a key that is not listed has no row, committed or not.
structure WF (m : Store K V T) : Prop where
  nodup : m.keys.Nodup
  absent : ∀ k, k ∉ m.keys → m.cell k = Cell.empty

theorem WF.mem_of_seen {m : Store K V T} (h : m.WF) {t : TxId} {k : K}
    (hs : (m.cell k).seen t ≠ none) : k ∈ m.keys := by
  by_contra hk
  exact hs (by rw [h.absent k hk]; rfl)

theorem WF.mem_of_committed {m : Store K V T} (h : m.WF) {k : K} {v : V k}
    (hc : (m.cell k).committed = some v) : k ∈ m.keys := by
  by_contra hk
  simp [h.absent k hk, Cell.empty] at hc

theorem WF.commit {m : Store K V T} (h : m.WF) {t : TxId} : (m.commit t).WF where
  nodup := h.nodup
  absent k hk := by simp [Store.commit, h.absent k hk, Cell.publish, Cell.empty]

theorem WF.rollback {m : Store K V T} (h : m.WF) {t : TxId} : (m.rollback t).WF where
  nodup := h.nodup
  absent k hk := by simp [Store.rollback, h.absent k hk, Cell.release, Cell.empty]

theorem commit_cell_held {m : Store K V T} {t : TxId} {k : K} {v : V k}
    (h : (m.cell k).pending = some (t, v)) : (m.commit t).cell k = ⟨some v, none⟩ := by
  simp [Store.commit, Cell.publish, h]

theorem commit_cell_other {m : Store K V T} {t : TxId} {k : K}
    (h : ∀ v, (m.cell k).pending ≠ some (t, v)) : (m.commit t).cell k = m.cell k := by
  simp only [Store.commit, Cell.publish]
  split
  · rename_i s v hp
    have hs : s ≠ t := fun he => h v (he ▸ hp)
    simp [hs]
  · rfl

-- A commit publishes what its transaction sees.
theorem commit_seen (m : Store K V T) (t : TxId) (k : K) :
    ((m.commit t).cell k).committed = (m.cell k).seen t := by
  by_cases h : ∃ v, (m.cell k).pending = some (t, v)
  · obtain ⟨v, hv⟩ := h
    rw [commit_cell_held hv, Cell.seen_of_held hv]
  · have hunheld : ∀ v, (m.cell k).pending ≠ some (t, v) := not_exists.mp h
    rw [commit_cell_other hunheld, Cell.seen_of_unheld hunheld]

theorem commit_not_held (m : Store K V T) (t : TxId) (k : K) (v : V k) :
    ((m.commit t).cell k).pending ≠ some (t, v) := by
  by_cases h : ∃ w, (m.cell k).pending = some (t, w)
  · obtain ⟨w, hw⟩ := h
    simp [commit_cell_held hw]
  · simp only [not_exists] at h
    rw [commit_cell_other h]
    exact h v

theorem commit_eq_self {m : Store K V T} {t : TxId}
    (h : ∀ k v, (m.cell k).pending ≠ some (t, v)) : m.commit t = m := by
  have hcell : (fun k => (m.cell k).publish t) = m.cell :=
    funext fun k => commit_cell_other (h k)
  cases m
  simp only [Store.commit] at hcell ⊢
  rw [hcell]

@[simp] theorem rollback_committed (m : Store K V T) (t : TxId) (k : K) :
    ((m.rollback t).cell k).committed = (m.cell k).committed := by
  simp only [Store.rollback, Cell.release]
  split
  · split <;> rfl
  · rfl

theorem rollback_cell_other {m : Store K V T} {t : TxId} {k : K}
    (h : ∀ v, (m.cell k).pending ≠ some (t, v)) : (m.rollback t).cell k = m.cell k := by
  simp only [Store.rollback, Cell.release]
  split
  · rename_i s v hp
    have hs : s ≠ t := fun he => h v (he ▸ hp)
    simp [hs]
  · rfl

theorem rollback_cell_held {m : Store K V T} {t : TxId} {k : K} {v : V k}
    (h : (m.cell k).pending = some (t, v)) :
    (m.rollback t).cell k = ⟨(m.cell k).committed, none⟩ := by
  simp [Store.rollback, Cell.release, h]

theorem rollback_not_held (m : Store K V T) (t : TxId) (k : K) (v : V k) :
    ((m.rollback t).cell k).pending ≠ some (t, v) := by
  by_cases h : ∃ w, (m.cell k).pending = some (t, w)
  · obtain ⟨w, hw⟩ := h
    simp [rollback_cell_held hw]
  · simp only [not_exists] at h
    rw [rollback_cell_other h]
    exact h v

-- A transaction that holds no lock leaves nothing behind when it ends.
theorem rollback_eq_self {m : Store K V T} {t : TxId}
    (h : ∀ k v, (m.cell k).pending ≠ some (t, v)) : m.rollback t = m := by
  have hcell : (fun k => (m.cell k).release t) = m.cell :=
    funext fun k => rollback_cell_other (h k)
  cases m
  simp only [Store.rollback] at hcell ⊢
  rw [hcell]

variable [DecidableEq K]

def own (t : TxId) (k : K) (v : V k) (m : Store K V T) : Store K V T :=
  { m with cell := Function.update m.cell k ((m.cell k).own t v) }

def insert (t : TxId) (k : K) (v : V k) (m : Store K V T) : Store K V T :=
  { m.own t k v with keys := m.keys ++ [k] }

@[simp] theorem own_keys (t : TxId) (k : K) (v : V k) (m : Store K V T) :
    (m.own t k v).keys = m.keys := rfl

@[simp] theorem own_clock (t : TxId) (k : K) (v : V k) (m : Store K V T) :
    (m.own t k v).clock = m.clock := rfl

@[simp] theorem own_opened (t : TxId) (k : K) (v : V k) (m : Store K V T) :
    (m.own t k v).opened = m.opened := rfl

@[simp] theorem own_cell_self (t : TxId) (k : K) (v : V k) (m : Store K V T) :
    (m.own t k v).cell k = ⟨(m.cell k).committed, some (t, v)⟩ := by
  simp [own, Cell.own]

theorem own_cell_ne (t : TxId) (k : K) (v : V k) (m : Store K V T) {k' : K} (h : k' ≠ k) :
    (m.own t k v).cell k' = m.cell k' := by
  simp [own, h]

@[simp] theorem own_committed (t : TxId) (k : K) (v : V k) (m : Store K V T) (k' : K) :
    ((m.own t k v).cell k').committed = (m.cell k').committed := by
  by_cases h : k' = k
  · subst h
    simp
  · rw [own_cell_ne t k v m h]

-- A version that is pending already.
theorem own_eq_self {m : Store K V T} {t : TxId} {k : K} {v : V k}
    (h : (m.cell k).pending = some (t, v)) : m.own t k v = m := by
  have hcell : (m.cell k).own t v = m.cell k := by
    unfold Cell.own
    rw [← h]
  unfold own
  rw [hcell, Function.update_eq_self]

@[simp] theorem insert_cell (t : TxId) (k : K) (v : V k) (m : Store K V T) (k' : K) :
    (m.insert t k v).cell k' = (m.own t k v).cell k' := rfl

theorem WF.own {m : Store K V T} (h : m.WF) {t : TxId} {k : K} (v : V k) (hk : k ∈ m.keys) :
    (m.own t k v).WF where
  nodup := h.nodup
  absent k' hk' := by
    have hne : k' ≠ k := fun he => hk' (he ▸ hk)
    rw [own_cell_ne t k v m hne]
    exact h.absent k' hk'

theorem WF.insert {m : Store K V T} (h : m.WF) {t : TxId} {k : K} (v : V k) (hk : k ∉ m.keys) :
    (m.insert t k v).WF where
  nodup := by
    simp only [Store.insert, List.nodup_append, h.nodup, true_and]
    simp only [List.nodup_cons, List.not_mem_nil, not_false_eq_true, List.nodup_nil, and_self,
      List.mem_singleton, true_and]
    intro a ha b hb he
    exact hk (hb ▸ he ▸ ha)
  absent k' hk' := by
    simp only [Store.insert, List.mem_append, List.mem_singleton, not_or] at hk'
    change (m.own t k v).cell k' = Cell.empty
    rw [own_cell_ne t k v m hk'.2]
    exact h.absent k' hk'.1

end Store

end Txn
