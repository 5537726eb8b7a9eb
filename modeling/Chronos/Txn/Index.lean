import Chronos.Txn.Additions
import Chronos.Txn.Rows
import Chronos.Txn.Traces
import Mathlib.Data.List.Sigma

namespace Txn

variable {K : Type} {V : K → Type} {T C : Type} {α : Type}

-- A version of a row: the committed one, or that of the transaction that holds the row.
def Store.Version (m : Store K V T) (k : K) (v : V k) : Prop :=
  (m.cell k).committed = some v ∨ ∃ s, (m.cell k).pending = some (s, v)

-- A unique index: versions that clash are versions of one row.
def Store.Indexed (clash : ∀ k, V k → ∀ k', V k' → Bool) (m : Store K V T) : Prop :=
  ∀ k v k' v', m.Version k v → m.Version k' v' → clash k v k' v' = true → k = k'

section Version

variable {m m' : Store K V T} {t : TxId} {k : K} {v : V k}

theorem Store.Version.of_seen (h : (m.cell k).seen t = some v) : m.Version k v := by
  rcases Cell.seen_cases h with hp | hc
  · exact .inr ⟨t, hp⟩
  · exact .inl hc

theorem Store.Version.mem_keys (h : m.Version k v) (hwf : m.WF) : k ∈ m.keys := by
  by_contra hk
  rw [Version, hwf.absent k hk] at h
  obtain hc | ⟨s, hp⟩ := h
  · cases hc
  · cases hp

theorem Store.Version.of_commit (h : (m.commit t).Version k v) : m.Version k v := by
  by_cases hheld : ∃ w, (m.cell k).pending = some (t, w)
  · obtain ⟨w, hw⟩ := hheld
    rw [Version, commit_cell_held hw] at h
    obtain hc | ⟨s, hp⟩ := h
    · exact .inr ⟨t, by rw [hw, Option.some.inj hc]⟩
    · cases hp
  · rw [not_exists] at hheld
    rwa [Version, commit_cell_other hheld] at h

theorem Store.Version.of_rollback (h : (m.rollback t).Version k v) : m.Version k v := by
  by_cases hheld : ∃ w, (m.cell k).pending = some (t, w)
  · obtain ⟨w, hw⟩ := hheld
    rw [Version, rollback_cell_held hw] at h
    obtain hc | ⟨s, hp⟩ := h
    · exact .inl hc
    · cases hp
  · rw [not_exists] at hheld
    rwa [Version, rollback_cell_other hheld] at h

variable [DecidableEq K]

theorem Store.Version.of_insert {k' : K} {row : V k'} (h : (m.insert t k' row).Version k v)
    (hne : k ≠ k') : m.Version k v := by
  rw [Version, insert_cell, own_cell_ne t k' row m hne] at h
  exact h

theorem Store.Version.eq_of_insert {row : V k} (hwf : m.WF) (hk : k ∉ m.keys)
    (h : (m.insert t k row).Version k v) : v = row := by
  rw [Version, insert_cell, own_cell_self] at h
  obtain hc | ⟨s, hp⟩ := h
  · rw [hwf.absent k hk] at hc
    cases hc
  · exact (Prod.mk.inj (Option.some.inj hp)).2.symm

end Version

namespace Store.Indexed

variable {clash : ∀ k, V k → ∀ k', V k' → Bool} {m : Store K V T} {t : TxId}

theorem commit (h : m.Indexed clash) : (m.commit t).Indexed clash :=
  fun k v k' v' hv hv' => h k v k' v' hv.of_commit hv'.of_commit

theorem rollback (h : m.Indexed clash) : (m.rollback t).Indexed clash :=
  fun k v k' v' hv hv' => h k v k' v' hv.of_rollback hv'.of_rollback

variable [DecidableEq K]

-- The check of an INSERT is enough where whatever is pending is a new row.
theorem insert (h : m.Indexed clash) (hwf : m.WF) (hadded : m.Added) {k : K} (row : V k)
    (hsymm : ∀ k v k' v', clash k v k' v' = clash k' v' k v) (hk : k ∉ m.keys)
    (hclash : insertClashes t (clash k row) m = false)
    (hwaits : insertWaits (clash k row) m = false) : (m.insert t k row).Indexed clash := by
  have hnone : ∀ k' v', m.Version k' v' → clash k row k' v' = false := by
    intro k' v' hv'
    rw [Bool.eq_false_iff]
    intro hc
    have hkey := hv'.mem_keys hwf
    obtain hcommitted | ⟨s, hp⟩ := hv'
    · have hseen : (m.cell k').seen t = some v' := hadded.extends_view t k' v' hcommitted
      refine absurd hclash (Bool.not_eq_false _ ▸ List.any_eq_true.mpr ⟨k', hkey, ?_⟩)
      rw [hseen]
      exact hc
    · refine absurd hwaits (Bool.not_eq_false _ ▸ List.any_eq_true.mpr ⟨k', hkey, ?_⟩)
      rw [hp]
      exact hc
  intro k₁ v₁ k₂ v₂ h₁ h₂ hc
  by_cases hk₁ : k₁ = k
  · by_cases hk₂ : k₂ = k
    · rw [hk₁, hk₂]
    · subst hk₁
      obtain rfl := h₁.eq_of_insert hwf hk
      rw [hnone k₂ v₂ (h₂.of_insert hk₂)] at hc
      cases hc
  · by_cases hk₂ : k₂ = k
    · subst hk₂
      obtain rfl := h₂.eq_of_insert hwf hk
      rw [hsymm, hnone k₁ v₁ (h₁.of_insert hk₁)] at hc
      cases hc
    · exact h k₁ v₁ k₂ v₂ (h₁.of_insert hk₁) (h₂.of_insert hk₂) hc

end Store.Indexed

-- A foreign key: the row that a row refers to is visible to whoever sees the row.
structure Store.References (parent : ∀ k, V k → Option K) (m : Store K V T) : Prop where
  committed : ∀ k v p, (m.cell k).committed = some v → parent k v = some p →
    (m.cell p).committed.isSome = true
  pending : ∀ k s v p, (m.cell k).pending = some (s, v) → parent k v = some p →
    ((m.cell p).seen s).isSome = true

namespace Store.References

variable {parent : ∀ k, V k → Option K} {m : Store K V T} {t : TxId}

theorem commit (h : m.References parent) : (m.commit t).References parent where
  committed k v p hv hp := by
    rw [commit_seen] at hv ⊢
    rcases Cell.seen_cases hv with hheld | hc
    · exact h.pending k t v p hheld hp
    · exact seen_isSome t (h.committed k v p hc hp)
  pending k s v p hv hp := by
    have hst : s ≠ t := by
      rintro rfl
      exact m.commit_not_held s k v hv
    have hold : (m.cell k).pending = some (s, v) :=
      ((Cell.publish_step t (m.cell k)).other hst v).mpr hv
    obtain ⟨w, hw⟩ := Option.isSome_iff_exists.mp (h.pending k s v p hold hp)
    rcases Cell.seen_cases hw with hheld | hc
    · have hkept : ((m.commit t).cell p).pending = some (s, w) :=
        ((Cell.publish_step t (m.cell p)).other hst w).mp hheld
      rw [Cell.seen_of_held hkept]
      rfl
    · refine seen_isSome s ?_
      rw [commit_seen]
      exact seen_isSome t (by rw [hc]; rfl)

theorem rollback (h : m.References parent) : (m.rollback t).References parent where
  committed k v p hv hp := by
    rw [rollback_committed] at hv ⊢
    exact h.committed k v p hv hp
  pending k s v p hv hp := by
    have hst : s ≠ t := by
      rintro rfl
      exact m.rollback_not_held s k v hv
    have hold : (m.cell k).pending = some (s, v) :=
      ((Cell.release_step t (m.cell k)).other hst v).mpr hv
    obtain ⟨w, hw⟩ := Option.isSome_iff_exists.mp (h.pending k s v p hold hp)
    rcases Cell.seen_cases hw with hheld | hc
    · have hkept : ((m.rollback t).cell p).pending = some (s, w) :=
        ((Cell.release_step t (m.cell p)).other hst w).mp hheld
      rw [Cell.seen_of_held hkept]
      rfl
    · refine seen_isSome s ?_
      rw [rollback_committed, hc]
      rfl

variable [DecidableEq K]

theorem insert (h : m.References parent) (hwf : m.WF) {k : K} (row : V k) (hk : k ∉ m.keys)
    (hrow : ∀ p, parent k row = some p → ((m.cell p).seen t).isSome = true) :
    (m.insert t k row).References parent where
  committed k' v p hv hp := by
    rw [insert_cell, own_committed] at hv ⊢
    exact h.committed k' v p hv hp
  pending k' s v p hv hp := by
    have hseen : ∀ p u, ((m.cell p).seen u).isSome = true →
        (((m.insert t k row).cell p).seen u).isSome = true := by
      intro p u hu
      have hne : p ≠ k := by
        rintro rfl
        rw [hwf.absent p hk] at hu
        cases hu
      rwa [insert_cell, own_cell_ne t k row m hne]
    by_cases heq : k' = k
    · subst heq
      rw [insert_cell, own_cell_self, Option.some.injEq, Prod.mk.injEq] at hv
      obtain ⟨rfl, rfl⟩ := hv
      exact hseen p _ (hrow p hp)
    · rw [insert_cell, own_cell_ne t k row m heq] at hv
      exact hseen p s (h.pending k' s v p hv hp)

end Store.References

section Rows

variable [DecidableEq K] {m : Store K V T} {t : TxId} {rows : List (Sigma V)}

-- The rows a transaction holds are those of a list.
def Store.Holds (t : TxId) (rows : List (Sigma V)) (m : Store K V T) : Prop :=
  m.mine t = fun k => rows.dlookup k

theorem Store.Holds.insert (h : m.Holds t rows) (hwf : m.WF) {k : K} (row : V k)
    (hk : k ∉ m.keys) : (m.insert t k row).Holds t (rows ++ [⟨k, row⟩]) := by
  funext k'
  have hold : m.mine t k' = rows.dlookup k' := congrFun h k'
  rw [List.dlookup_append]
  by_cases heq : k' = k
  · subst heq
    rw [mine_insert_self, ← hold, mine_absent hwf hk, Option.none_or, List.dlookup_cons_eq]
  · rw [mine_insert_ne row heq, hold, List.dlookup_cons_ne _ _ heq]
    simp

-- What such a transaction leaves.
theorem Store.Holds.stored_commit (h : m.Holds t rows) (k : K) :
    (m.commit t).stored k = (rows.dlookup k).or (m.stored k) := by
  show ((m.commit t).cell k).committed = _
  rw [commit_committed, congrFun h k]
  rfl

theorem Store.Holds.stored_none (h : m.Holds t rows) (hadded : m.Added) {k : K} {v : V k}
    (hv : rows.dlookup k = some v) : m.stored k = none :=
  hadded k t v (mine_eq_some.mp ((congrFun h k).trans hv))

theorem Store.Holds.view_nil (h : m.Holds t []) : (m.view t).row = m.stored :=
  funext fun k => seen_of_not_mine (congrFun h k)

theorem holds_nil (h : ∀ k v, (m.cell k).pending ≠ some (t, v)) : m.Holds t [] :=
  funext fun k => mine_eq_none.mpr (h k)

end Rows

section Stable

variable [LE T] {S : Spec K V T C α} {t : TxId} {P : (∀ k, Option (V k)) → Prop}

omit [LE T] in
theorem mine_congr {m m' : Store K V T} (h : ∀ k v, (m.cell k).pending = some (t, v) ↔
    (m'.cell k).pending = some (t, v)) : m'.mine t = m.mine t := by
  funext k
  apply Option.ext
  intro v
  rw [mine_eq_some, mine_eq_some]
  exact (h k v).symm

theorem Stable.holds_rows [DecidableEq K] (rows : List (Sigma V)) :
    Stable S t fun m => m.Holds t rows :=
  fun _ _ _ _ hi h => (mine_congr fun _ _ => hi.held_iff).trans h

-- Where committed rows stay as they are, what is said of rows that are there stays true.
theorem Stable.stored_of_extends
    (hext : ∀ c s m m', S.guar c s m m' → Extends m.stored m'.stored) (hP : Upward P) :
    Stable S t fun m => P m.stored := by
  intro m m' _ _ hi h
  refine hP _ _ (fun k v hv => ?_) h
  obtain ⟨-, -, -, henv | ⟨c, s, -, -, -, hg⟩⟩ := hi
  · rw [Store.stored, henv.cell]
    exact hv
  · exact hext c s m m' hg k v hv

end Stable

end Txn
