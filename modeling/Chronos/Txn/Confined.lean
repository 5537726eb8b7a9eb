import Chronos.Txn.Domains

namespace Txn

variable {K : Type} {V : K → Type} {T : Type} {D : Type} {α β γ : Type}
variable [DecidableEq K] [DecidableEq D] {d : Domains K V D} {a b : D} {t : TxId}
variable {m m' m₁ m₂ : Store K V T} {k : K}

namespace Domains

omit [DecidableEq D] in
theorem Sound.own (h : d.Sound a t m) (hk : d.dom k ≠ a) {row : V k} (hok : d.ok k row) :
    d.Sound a t (m.own t k row) where
  committed k' v hc := h.committed k' v (by simpa using hc)
  pending k' s v hp := by
    by_cases hkk : k' = k
    · subst hkk
      rw [Store.own_cell_self, Option.some.injEq, Prod.mk.injEq] at hp
      exact hp.2 ▸ hok
    · rw [Store.own_cell_ne t k row m hkk] at hp
      exact h.pending k' s v hp
  unheld k' hk' v hp := by
    have hkk : k' ≠ k := fun heq => hk (heq ▸ hk')
    rw [Store.own_cell_ne t k row m hkk] at hp
    exact h.unheld k' hk' v hp

omit [DecidableEq D] in
theorem Sound.insert (h : d.Sound a t m) (hk : d.dom k ≠ a) {row : V k} (hok : d.ok k row) :
    d.Sound a t (m.insert t k row) :=
  ⟨⟨(h.own hk hok).committed, (h.own hk hok).pending⟩, (h.own hk hok).unheld⟩

omit [DecidableEq D] in
theorem Kept.own (hk : d.dom k ≠ a) (row : V k) : d.Kept a m (m.own t k row) :=
  fun _ hk' => Store.own_cell_ne t k row m fun heq => hk (heq ▸ hk')

theorem Differ.own (h : d.Differ a m₁ m₂) (row : V k) :
    d.Differ a (m₁.own t k row) (m₂.own t k row) where
  keys := h.keys
  cell k' hk' := by
    by_cases hkk : k' = k
    · subst hkk
      rw [Store.own_cell_self, Store.own_cell_self, h.cell k' hk']
    · rw [Store.own_cell_ne t k row m₁ hkk, Store.own_cell_ne t k row m₂ hkk, h.cell k' hk']
  clock := h.clock

theorem Differ.insert (h : d.Differ a m₁ m₂) (row : V k) :
    d.Differ a (m₁.insert t k row) (m₂.insert t k row) where
  keys := by
    have hkeys := h.keys
    simp only [beyond, Store.insert, List.filter_append] at hkeys ⊢
    rw [hkeys]
  cell := (h.own row).cell
  clock := h.clock

omit [DecidableEq K] [DecidableEq D] in
theorem Sound.commit_cell (h : d.Sound a t m) (hk : d.dom k = a) :
    (m.commit t).cell k = m.cell k :=
  Store.commit_cell_other (h.unheld k hk)

omit [DecidableEq K] [DecidableEq D] in
theorem Sound.rollback_cell (h : d.Sound a t m) (hk : d.dom k = a) :
    (m.rollback t).cell k = m.cell k :=
  Store.rollback_cell_other (h.unheld k hk)

omit [DecidableEq K] [DecidableEq D] in
theorem Sound.commit (h : d.Sound a t m) : d.Sound a t (m.commit t) where
  committed k v hc := by
    by_cases hheld : ∃ w, (m.cell k).pending = some (t, w)
    · obtain ⟨w, hw⟩ := hheld
      rw [Store.commit_cell_held hw, Option.some.injEq] at hc
      exact hc ▸ h.pending k t w hw
    · rw [not_exists] at hheld
      rw [Store.commit_cell_other hheld] at hc
      exact h.committed k v hc
  pending k s v hp := by
    by_cases hheld : ∃ w, (m.cell k).pending = some (t, w)
    · obtain ⟨w, hw⟩ := hheld
      rw [Store.commit_cell_held hw] at hp
      cases hp
    · rw [not_exists] at hheld
      rw [Store.commit_cell_other hheld] at hp
      exact h.pending k s v hp
  unheld k _ := Store.commit_not_held m t k

omit [DecidableEq K] [DecidableEq D] in
theorem Sound.rollback (h : d.Sound a t m) : d.Sound a t (m.rollback t) where
  committed k v hc := h.committed k v (by simpa using hc)
  pending k s v hp := by
    by_cases hheld : ∃ w, (m.cell k).pending = some (t, w)
    · obtain ⟨w, hw⟩ := hheld
      rw [Store.rollback_cell_held hw] at hp
      cases hp
    · rw [not_exists] at hheld
      rw [Store.rollback_cell_other hheld] at hp
      exact h.pending k s v hp
  unheld k _ := Store.rollback_not_held m t k

omit [DecidableEq K] in
theorem Differ.commit (h : d.Differ a m₁ m₂) : d.Differ a (m₁.commit t) (m₂.commit t) where
  keys := h.keys
  cell k hk := congrArg (Cell.publish t) (h.cell k hk)
  clock := h.clock

omit [DecidableEq K] in
theorem Differ.rollback (h : d.Differ a m₁ m₂) : d.Differ a (m₁.rollback t) (m₂.rollback t) where
  keys := h.keys
  cell k hk := congrArg (Cell.release t) (h.cell k hk)
  clock := h.clock

-- Two runs from twins: both wait, or both end, with the same result, in twins, and nothing of
-- `a` is touched.
variable (d a t m₁ m₂) in
structure Ends (R : α → Prop) (r₁ r₂ : α × Store K V T) : Prop where
  same : r₁.1 = r₂.1
  result : R r₁.1
  twins : d.Twins a t r₁.2 r₂.2
  left : d.Kept a m₁ r₁.2
  right : d.Kept a m₂ r₂.2

end Domains

-- The program reads and writes the rows of `b` only, as far as its result can tell: whatever the
-- rows of another domain are, they stay what they are and make no difference.
def Confined (d : Domains K V D) (b : D) (t : TxId) (p : Prog K V T α) (R : α → Prop) : Prop :=
  ∀ a, a ≠ b → ∀ m₁ m₂, d.Twins a t m₁ m₂ →
    Option.Rel (d.Ends a t m₁ m₂ R) (p.run t m₁) (p.run t m₂)

namespace Confined

variable {p : Prog K V T α} {R R' : α → Prop}

theorem pure {x : α} (h : R x) : Confined d b t (Pure.pure x : Prog K V T α) R :=
  fun _ _ m₁ m₂ htwins => .some ⟨rfl, h, htwins, .refl m₁, .refl m₂⟩

theorem mono (h : Confined d b t p R) (hR : ∀ x, R x → R' x) : Confined d b t p R' := by
  intro a ha m₁ m₂ htwins
  have hends := h a ha m₁ m₂ htwins
  revert hends
  generalize p.run t m₁ = o₁
  generalize p.run t m₂ = o₂
  intro hends
  cases hends with
  | none => exact .none
  | some hend => exact .some ⟨hend.same, hR _ hend.result, hend.twins, hend.left, hend.right⟩

theorem bind {f : α → Prog K V T β} {S : β → Prop} (hp : Confined d b t p R)
    (hf : ∀ x, R x → Confined d b t (f x) S) : Confined d b t (p >>= f) S := by
  intro a ha m₁ m₂ htwins
  have hends := hp a ha m₁ m₂ htwins
  rw [Prog.bind_eq, Prog.run_bind, Prog.run_bind]
  revert hends
  generalize p.run t m₁ = o₁
  generalize p.run t m₂ = o₂
  intro hends
  cases hends with
  | none => exact .none
  | @some r₁ r₂ hend =>
      obtain ⟨x, n₁⟩ := r₁
      obtain ⟨y, n₂⟩ := r₂
      obtain ⟨hsame, hresult, htwins', hleft, hright⟩ := hend
      obtain rfl : x = y := hsame
      have hrest := hf x hresult a ha n₁ n₂ htwins'
      simp only [Option.bind_some]
      revert hrest
      generalize (f x).run t n₁ = o₁
      generalize (f x).run t n₂ = o₂
      intro hrest
      cases hrest with
      | none => exact .none
      | some hend =>
          exact .some ⟨hend.same, hend.result, hend.twins, hleft.trans hend.left,
            hright.trans hend.right⟩

theorem stmt {st : Stmt K V T α} (h : ∀ a, a ≠ b → ∀ m₁ m₂, d.Twins a t m₁ m₂ →
    Option.Rel (d.Ends a t m₁ m₂ R) (exec t st m₁) (exec t st m₂)) :
    Confined d b t (Txn.stmt st) R := by
  intro a ha m₁ m₂ htwins
  rw [Prog.run_stmt, Prog.run_stmt]
  exact h a ha m₁ m₂ htwins

theorem begin : Confined d b t (Txn.stmt .begin : Prog K V T T) fun _ => True :=
  .stmt fun _ _ m₁ m₂ h => .some ⟨h.differ.clock, trivial, h, .refl m₁, .refl m₂⟩

theorem commit : Confined d b t (Txn.stmt .commit : Prog K V T Unit) fun _ => True :=
  .stmt fun _ _ _ _ h => .some ⟨rfl, trivial, ⟨h.differ.commit, h.left.commit, h.right.commit⟩,
    fun _ => h.left.commit_cell, fun _ => h.right.commit_cell⟩

theorem rollback : Confined d b t (Txn.stmt .rollback : Prog K V T Unit) fun _ => True :=
  .stmt fun _ _ _ _ h => .some ⟨rfl, trivial, ⟨h.differ.rollback, h.left.rollback,
    h.right.rollback⟩, fun _ => h.left.rollback_cell, fun _ => h.right.rollback_cell⟩

-- A query that the rows of no other domain make a difference to.
theorem select {query : View K V → α}
    (h : ∀ a, a ≠ b → ∀ v₁ v₂, d.Alike a v₁ v₂ → query v₁ = query v₂ ∧ R (query v₁)) :
    Confined d b t (Txn.stmt (.select query) : Prog K V T α) R := by
  refine .stmt fun a ha m₁ m₂ htwins => ?_
  obtain ⟨hsame, hresult⟩ := h a ha _ _ htwins.alike
  exact .some ⟨hsame, hresult, htwins, .refl m₁, .refl m₂⟩

-- What an UPDATE may do to the row it locks.
theorem own_ends {x : α} (h : d.Twins a t m₁ m₂) (hk : d.dom k ≠ a) {row : V k}
    (hok : d.ok k row) (hR : R x) :
    Option.Rel (d.Ends a t m₁ m₂ R) (some (x, m₁.own t k row)) (some (x, m₂.own t k row)) :=
  .some ⟨rfl, hR, ⟨h.differ.own row, h.left.own hk hok, h.right.own hk hok⟩, .own hk row, .own hk row⟩

theorem write {set : V k → V k} (hk : d.dom k = b) (hset : ∀ row, d.ok k row → d.ok k (set row)) :
    Confined d b t (Txn.stmt (.write k set) : Prog K V T (Option (V k))) fun _ => True := by
  refine .stmt fun a ha m₁ m₂ htwins => ?_
  have hne : d.dom k ≠ a := fun heq => ha (heq.symm.trans hk)
  simp only [exec, ← htwins.differ.cell k hne]
  cases hp : (m₁.cell k).pending with
  | none => exact .some ⟨rfl, trivial, htwins, .refl m₁, .refl m₂⟩
  | some p =>
      obtain ⟨s, row⟩ := p
      by_cases hs : s = t
      · simp only [hs, if_true]
        exact own_ends htwins hne (hset row (htwins.left.pending k s row hp)) trivial
      · simp only [hs, if_false]
        exact .some ⟨rfl, trivial, htwins, .refl m₁, .refl m₂⟩

-- The WHERE clause of an UPDATE holds of rows of `b` only.
theorem update {cond : V k → Bool} {set : V k → V k}
    (hcond : ∀ row, d.ok k row → cond row = true → d.dom k = b)
    (hset : ∀ row, d.ok k row → d.ok k (set row)) :
    Confined d b t (Txn.stmt (.update k cond set) : Prog K V T (Option (V k))) fun _ => True := by
  refine .stmt fun a ha m₁ m₂ htwins => ?_
  by_cases hk : d.dom k = a
  · have hmiss : ∀ m : Store K V T, d.Alike a (m.view t) (m.view t) →
        exec t (.update k cond set) m = some (none, m) := by
      intro m halike
      simp only [exec]
      cases hseen : (m.cell k).seen t with
      | none => rfl
      | some row =>
          have hfalse : cond row = false := by
            rw [Bool.eq_false_iff]
            intro htrue
            exact ha (hk.symm.trans (hcond row (halike.left k row hseen) htrue))
          simp [hfalse]
    rw [hmiss m₁ htwins.alike.self_left, hmiss m₂ htwins.alike.self_right]
    exact .some ⟨rfl, trivial, htwins, .refl m₁, .refl m₂⟩
  · simp only [exec, ← htwins.differ.cell k hk]
    cases hseen : (m₁.cell k).seen t with
    | none => exact .some ⟨rfl, trivial, htwins, .refl m₁, .refl m₂⟩
    | some row =>
        dsimp only
        cases cond row with
        | false => exact .some ⟨rfl, trivial, htwins, .refl m₁, .refl m₂⟩
        | true =>
            cases (m₁.cell k).freeFor t with
            | false => exact .none
            | true => exact own_ends htwins hk (hset row (htwins.alike.left k row hseen)) trivial

-- A row of `b` is inserted, and the unique index compares it with rows of `b` only.
theorem insert {row : V k} {clash : ∀ k, V k → Bool} (hk : d.dom k = b) (hok : d.ok k row)
    (hclash : ∀ k' row', d.ok k' row' → clash k' row' = true → d.dom k' = b) :
    Confined d b t (Txn.stmt (.insert k row clash) : Prog K V T Bool) fun _ => True := by
  refine .stmt fun a ha m₁ m₂ htwins => ?_
  have hne : d.dom k ≠ a := fun heq => ha (heq.symm.trans hk)
  have hpass : ∀ k' row', d.dom k' = a → d.ok k' row' → clash k' row' = false := by
    intro k' row' hk' hok'
    rw [Bool.eq_false_iff]
    intro htrue
    exact ha (hk'.symm.trans (hclash k' row' hok' htrue))
  have hclashes : insertClashes t clash m₁ = insertClashes t clash m₂ := by
    refine htwins.alike.any (fun k' hk' => ?_) (fun k' hk' => ?_) fun k' hk' => ?_
    · rw [htwins.differ.cell k' hk']
    · cases hseen : (m₁.cell k').seen t with
      | none => rfl
      | some row' => exact hpass k' row' hk' (htwins.alike.left k' row' hseen)
    · cases hseen : (m₂.cell k').seen t with
      | none => rfl
      | some row' => exact hpass k' row' hk' (htwins.alike.right k' row' hseen)
  have hwaits : insertWaits clash m₁ = insertWaits clash m₂ := by
    refine htwins.alike.any (fun k' hk' => ?_) (fun k' hk' => ?_) fun k' hk' => ?_
    · rw [htwins.differ.cell k' hk']
    · cases hp : (m₁.cell k').pending with
      | none => rfl
      | some p => exact hpass k' p.2 hk' (htwins.left.pending k' p.1 p.2 hp)
    · cases hp : (m₂.cell k').pending with
      | none => rfl
      | some p => exact hpass k' p.2 hk' (htwins.right.pending k' p.1 p.2 hp)
  have hkeys : k ∈ m₁.keys ↔ k ∈ m₂.keys := Domains.mem_iff_of_beyond htwins.differ.keys hne
  simp only [exec, hkeys, hclashes, hwaits]
  by_cases hmem : k ∈ m₂.keys
  · simp only [hmem, if_true]
    exact .none
  · simp only [hmem, if_false]
    cases insertClashes t clash m₂ with
    | true => exact .some ⟨rfl, trivial, htwins, .refl m₁, .refl m₂⟩
    | false =>
        cases insertWaits clash m₂ with
        | true => exact .none
        | false =>
            exact .some ⟨rfl, trivial, ⟨htwins.differ.insert row, htwins.left.insert hne hok,
              htwins.right.insert hne hok⟩, .own hne row, .own hne row⟩

theorem «return» (x : α) : Confined d b t (Pure.pure x : Prog K V T α) fun _ => True :=
  .pure trivial

theorem thenReturn (h : Confined d b t p R) (f : α → β) :
    Confined d b t (p >>= fun x => Pure.pure (f x)) fun _ => True :=
  .bind h fun x _ => .return (f x)

theorem query {query : View K V → α}
    (h : ∀ a, a ≠ b → ∀ v₁ v₂, d.Alike a v₁ v₂ → query v₁ = query v₂) :
    Confined d b t (Txn.stmt (.select query) : Prog K V T α) fun _ => True :=
  .select fun a ha v₁ v₂ halike => ⟨h a ha v₁ v₂ halike, trivial⟩

-- The two ends of a transaction.
theorem abort (x : α) : Confined d b t
    (Txn.stmt .rollback >>= fun _ => Pure.pure x : Prog K V T α) fun _ => True :=
  .bind .rollback fun _ _ => .return x

theorem finish (x : α) : Confined d b t (Txn.stmt .commit >>= fun _ => Txn.stmt .rollback >>=
    fun _ => Pure.pure x : Prog K V T α) fun _ => True :=
  .bind .commit fun _ _ => .abort x

-- A program between the begin and the rollback of its transaction.
theorem lookup (h : Confined d b t p R) : Confined d b t (Txn.stmt .begin >>= fun _ => p >>=
    fun x => Txn.stmt .rollback >>= fun _ => Pure.pure x : Prog K V T α) fun _ => True :=
  .bind .begin fun _ _ => .bind h fun x _ => .abort x

end Confined

end Txn
