import Chronos.Txn.Shape

namespace Txn

variable {K : Type} {V : K → Type} {T : Type} {D : Type} {α β γ : Type}

-- The domain each row belongs to, and what every version of a row satisfies.
structure Domains (K : Type) (V : K → Type) (D : Type) where
  dom : K → D
  ok : ∀ k, V k → Prop

namespace Domains

variable (d : Domains K V D) (a : D)

-- Every version of every row satisfies what its key asks for.
structure Respected (m : Store K V T) : Prop where
  committed : ∀ k v, (m.cell k).committed = some v → d.ok k v
  pending : ∀ k s v, (m.cell k).pending = some (s, v) → d.ok k v

-- What a transaction outside of `a` works on: no row of `a` is locked by it.
structure Sound (t : TxId) (m : Store K V T) : Prop extends d.Respected m where
  unheld : ∀ k, d.dom k = a → ∀ v, (m.cell k).pending ≠ some (t, v)

-- The rows of `a` are what they were.
def Kept (m m' : Store K V T) : Prop := ∀ k, d.dom k = a → m'.cell k = m.cell k

variable {d : Domains K V D} {a : D} {t : TxId} {m m' m'' m₁ m₂ : Store K V T}

theorem Kept.refl (m : Store K V T) : d.Kept a m m := fun _ _ => rfl

theorem Kept.trans (h : d.Kept a m m') (h' : d.Kept a m' m'') : d.Kept a m m'' :=
  fun k hk => (h' k hk).trans (h k hk)

variable [DecidableEq D]

variable (d a) in
-- The keys that do not belong to `a`.
def beyond (keys : List K) : List K := keys.filter fun k => d.dom k ≠ a

variable (d a) in
-- Two stores that differ in rows of `a` only.
structure Differ (m₁ m₂ : Store K V T) : Prop where
  keys : d.beyond a m₁.keys = d.beyond a m₂.keys
  cell : ∀ k, d.dom k ≠ a → m₁.cell k = m₂.cell k
  clock : m₁.clock = m₂.clock

variable (d a) in
structure Twins (t : TxId) (m₁ m₂ : Store K V T) : Prop where
  differ : d.Differ a m₁ m₂
  left : d.Sound a t m₁
  right : d.Sound a t m₂

variable (d a) in
-- The same for two snapshots.
structure Alike (v₁ v₂ : View K V) : Prop where
  keys : d.beyond a v₁.keys = d.beyond a v₂.keys
  row : ∀ k, d.dom k ≠ a → v₁.row k = v₂.row k
  left : ∀ k row, v₁.row k = some row → d.ok k row
  right : ∀ k row, v₂.row k = some row → d.ok k row

theorem Differ.refl (m : Store K V T) : d.Differ a m m := ⟨rfl, fun _ _ => rfl, rfl⟩

theorem mem_beyond {k : K} {keys : List K} : k ∈ d.beyond a keys ↔ k ∈ keys ∧ d.dom k ≠ a := by
  simp [beyond]

theorem mem_iff_of_beyond {k : K} {keys₁ keys₂ : List K}
    (h : d.beyond a keys₁ = d.beyond a keys₂) (hk : d.dom k ≠ a) : k ∈ keys₁ ↔ k ∈ keys₂ := by
  have h₁ : k ∈ d.beyond a keys₁ ↔ k ∈ keys₁ := by simp [mem_beyond, hk]
  have h₂ : k ∈ d.beyond a keys₂ ↔ k ∈ keys₂ := by simp [mem_beyond, hk]
  rw [← h₁, ← h₂, h]

-- A scan that passes over the rows of `a` finds the same beyond them.
theorem filterMap_beyond {f : K → Option β} (keys : List K) (h : ∀ k, d.dom k = a → f k = none) :
    keys.filterMap f = (d.beyond a keys).filterMap f := by
  rw [beyond, List.filterMap_filter]
  refine List.filterMap_congr fun k _ => ?_
  by_cases hk : d.dom k = a
  · simp [hk, h k hk]
  · simp [hk]

theorem any_beyond {f : K → Bool} (keys : List K) (h : ∀ k, d.dom k = a → f k = false) :
    keys.any f = (d.beyond a keys).any f := by
  rw [beyond, List.any_filter]
  congr 1
  funext k
  by_cases hk : d.dom k = a
  · simp [hk, h k hk]
  · simp [hk]

namespace Alike

variable {v₁ v₂ : View K V}

theorem self_left (h : d.Alike a v₁ v₂) : d.Alike a v₁ v₁ := ⟨rfl, fun _ _ => rfl, h.left, h.left⟩

theorem self_right (h : d.Alike a v₁ v₂) : d.Alike a v₂ v₂ :=
  ⟨rfl, fun _ _ => rfl, h.right, h.right⟩

-- Two lookups that do not tell a row of `a` from none find the same.
theorem lookup (h : d.Alike a v₁ v₂) {k : K} {f : V k → Option β}
    (hf : ∀ row, d.ok k row → d.dom k = a → f row = none) :
    (v₁.row k).bind f = (v₂.row k).bind f := by
  by_cases hk : d.dom k = a
  · have hnone : ∀ v : View K V, (∀ k row, v.row k = some row → d.ok k row) →
        (v.row k).bind f = none := by
      intro v hv
      cases hrow : v.row k with
      | none => rfl
      | some row => exact hf row (hv k row hrow) hk
    rw [hnone v₁ h.left, hnone v₂ h.right]
  · rw [h.row k hk]

theorem scan (h : d.Alike a v₁ v₂) {f₁ f₂ : K → Option β} (hf : ∀ k, d.dom k ≠ a → f₁ k = f₂ k)
    (h₁ : ∀ k, d.dom k = a → f₁ k = none) (h₂ : ∀ k, d.dom k = a → f₂ k = none) :
    v₁.keys.filterMap f₁ = v₂.keys.filterMap f₂ := by
  rw [filterMap_beyond (a := a) v₁.keys h₁, filterMap_beyond (a := a) v₂.keys h₂, h.keys]
  exact List.filterMap_congr fun k hk => hf k (mem_beyond.mp hk).2

theorem any (h : d.Alike a v₁ v₂) {f₁ f₂ : K → Bool} (hf : ∀ k, d.dom k ≠ a → f₁ k = f₂ k)
    (h₁ : ∀ k, d.dom k = a → f₁ k = false) (h₂ : ∀ k, d.dom k = a → f₂ k = false) :
    v₁.keys.any f₁ = v₂.keys.any f₂ := by
  rw [any_beyond (a := a) v₁.keys h₁, any_beyond (a := a) v₂.keys h₂, h.keys, Bool.eq_iff_iff,
    List.any_eq_true, List.any_eq_true]
  refine exists_congr fun k => and_congr_right fun hk => ?_
  rw [hf k (mem_beyond.mp hk).2]

end Alike

theorem Twins.alike (h : d.Twins a t m₁ m₂) : d.Alike a (m₁.view t) (m₂.view t) where
  keys := h.differ.keys
  row k hk := congrArg (Cell.seen t) (h.differ.cell k hk)
  left := seen_ok h.left
  right := seen_ok h.right
where
  seen_ok {m : Store K V T} (h : d.Sound a t m) (k : K) (row : V k)
      (hrow : (m.cell k).seen t = some row) : d.ok k row := by
    unfold Cell.seen at hrow
    split at hrow
    · rename_i s v hp
      split at hrow
      · obtain rfl := Option.some.inj hrow
        exact h.pending k s v hp
      · exact h.committed k row hrow
    · exact h.committed k row hrow

end Domains

end Txn
