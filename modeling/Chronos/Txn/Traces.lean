import Chronos.Txn.Solo

namespace Txn

variable {K : Type} {V : K → Type} {T : Type} {α β γ : Type}

-- The row versions a transaction has written or locked.
def Store.mine (t : TxId) (m : Store K V T) (k : K) : Option (V k) :=
  match (m.cell k).pending with
  | some (s, v) => if s = t then some v else none
  | none => none

-- What other transactions can do between two statements of `t`: anything but touch the rows it
-- holds, or hand it one.
structure Others (t : TxId) (m m' : Store K V T) : Prop where
  wf : m'.WF
  mine : m'.mine t = m.mine t
  committed : ∀ k, m.mine t k ≠ none → (m'.cell k).committed = (m.cell k).committed

-- Statements that publish nothing.
def Quiet (m m' : Store K V T) : Prop := ∀ k, (m'.cell k).committed = (m.cell k).committed

theorem mine_eq_some {t : TxId} {m : Store K V T} {k : K} {v : V k} :
    m.mine t k = some v ↔ (m.cell k).pending = some (t, v) := by
  unfold Store.mine
  cases hp : (m.cell k).pending with
  | none => simp
  | some p =>
      obtain ⟨s, w⟩ := p
      by_cases hs : s = t
      · subst hs
        simp
      · simp [hs]

theorem mine_eq_none {t : TxId} {m : Store K V T} {k : K} :
    m.mine t k = none ↔ ∀ v, (m.cell k).pending ≠ some (t, v) := by
  rw [Option.eq_none_iff_forall_not_mem]
  simp only [Option.mem_def, mine_eq_some]

theorem mine_absent {t : TxId} {m : Store K V T} {k : K} (hwf : m.WF) (hk : k ∉ m.keys) :
    m.mine t k = none := by
  rw [mine_eq_none]
  intro v hv
  rw [hwf.absent k hk] at hv
  simp [Cell.empty] at hv

theorem quiet_refl (m : Store K V T) : Quiet m m := fun _ => rfl

theorem quiet_rollback (t : TxId) (m : Store K V T) : Quiet m (m.rollback t) :=
  fun k => m.rollback_committed t k

-- The commit publishes exactly the rows held.
theorem commit_committed (t : TxId) (m : Store K V T) (k : K) :
    ((m.commit t).cell k).committed = (m.mine t k).or (m.cell k).committed := by
  cases hm : m.mine t k with
  | none => rw [Store.commit_cell_other (mine_eq_none.mp hm), Option.none_or]
  | some v => rw [Store.commit_cell_held (mine_eq_some.mp hm), Option.some_or]

theorem seen_of_mine {t : TxId} {m : Store K V T} {k : K} {v : V k} (h : m.mine t k = some v) :
    (m.cell k).seen t = some v :=
  Cell.seen_of_held (mine_eq_some.mp h)

theorem seen_of_not_mine {t : TxId} {m : Store K V T} {k : K} (h : m.mine t k = none) :
    (m.cell k).seen t = (m.cell k).committed := by
  rw [mine_eq_none] at h
  exact Cell.seen_of_unheld h

theorem mine_rollback (t : TxId) (m : Store K V T) : (m.rollback t).mine t = fun _ => none :=
  funext fun k => mine_eq_none.mpr (m.rollback_not_held t k)

-- Assertions that the others cannot break.
def Steady (t : TxId) (P : Store K V T → Prop) : Prop := ∀ m m', Others t m m' → P m → P m'

theorem Steady.mine {t : TxId} (D : (∀ k, Option (V k)) → Prop) :
    Steady t fun m : Store K V T => D (m.mine t) := by
  intro m m' ho h
  rw [ho.mine]
  exact h

theorem Others.refl {t : TxId} {m : Store K V T} (hwf : m.WF) : Others t m m := ⟨hwf, rfl, fun _ _ => rfl⟩

variable [DecidableEq K] {t : TxId}

-- An execution of a program with the others at work between its statements: the stores before
-- and after each statement of its own, what it returns, unless it is cut off, and where it ends.
inductive Execs (t : TxId) : {α : Type} → Prog K V T α → Store K V T →
    List (Store K V T × Store K V T) → Option α → Store K V T → Prop
  | ret {α : Type} (a : α) (m : Store K V T) : Execs t (.pure a) m [] (some a) m
  | cut {α : Type} (p : Prog K V T α) (m : Store K V T) : Execs t p m [] none (m.rollback t)
  | run {α β : Type} {st : Stmt K V T β} {next : β → Prog K V T α} {m m₁ m₂ m' : Store K V T}
      {r : β} {steps : List (Store K V T × Store K V T)} {out : Option α} (ho : Others t m m₁)
      (he : exec t st m₁ = some (r, m₂)) (h : Execs t (next r) m₂ steps out m') :
      Execs t (.op st next) m ((m₁, m₂) :: steps) out m'
  | skip {α β : Type} {st : Stmt K V T β} {next : β → Prog K V T α} {m m' : Store K V T} {r : β}
      {steps : List (Store K V T × Store K V T)} {out : Option α} (hs : st.skipped = some r)
      (h : Execs t (next r) m steps out m') : Execs t (.op st next) m steps out m'

theorem Execs.of_bind {p : Prog K V T α} {f : α → Prog K V T β} {m m' : Store K V T}
    {steps : List (Store K V T × Store K V T)} {out : Option β}
    (h : Execs t (p.bind f) m steps out m') :
    (out = none ∧ Execs t p m steps none m') ∨
      ∃ a m₁ steps₁ steps₂, steps = steps₁ ++ steps₂ ∧ Execs t p m steps₁ (some a) m₁ ∧
        Execs t (f a) m₁ steps₂ out m' := by
  induction p generalizing m steps with
  | pure a => exact .inr ⟨a, m, [], steps, rfl, .ret a m, h⟩
  | op st next ih =>
      cases h with
      | cut => exact .inl ⟨rfl, .cut _ m⟩
      | run ho he h =>
          rcases ih _ h with ⟨hout, hp⟩ | ⟨a, m₁, steps₁, steps₂, hsteps, hp, hf⟩
          · exact .inl ⟨hout, .run ho he hp⟩
          · exact .inr ⟨a, m₁, _ :: steps₁, steps₂, by rw [hsteps]; rfl, .run ho he hp, hf⟩
      | skip hs h =>
          rcases ih _ h with ⟨hout, hp⟩ | ⟨a, m₁, steps₁, steps₂, hsteps, hp, hf⟩
          · exact .inl ⟨hout, .skip hs hp⟩
          · exact .inr ⟨a, m₁, steps₁, steps₂, hsteps, .skip hs hp, hf⟩

-- An execution that returns has executed its first statement, if that cannot be skipped.
theorem Execs.of_op {st : Stmt K V T β} {next : β → Prog K V T α} {m m' : Store K V T} {a : α}
    {steps : List (Store K V T × Store K V T)} (hst : st.skipped = none)
    (h : Execs t (.op st next) m steps (some a) m') :
    ∃ r m₁ m₂ rest, steps = (m₁, m₂) :: rest ∧ Others t m m₁ ∧ exec t st m₁ = some (r, m₂) ∧
      Execs t (next r) m₂ rest (some a) m' := by
  cases h with
  | run ho he h => exact ⟨_, _, _, _, rfl, ho, he, h⟩
  | skip hs h =>
      rw [hst] at hs
      cases hs

theorem Execs.mine_of_cut {p : Prog K V T α} {m m' : Store K V T}
    {steps : List (Store K V T × Store K V T)} (h : Execs t p m steps none m') :
    m'.mine t = fun _ => none := by
  induction p generalizing m steps with
  | pure a =>
      cases h with
      | cut => exact mine_rollback t m
  | op st next ih =>
      cases h with
      | cut => exact mine_rollback t m
      | run ho he h => exact ih _ h
      | skip hs h => exact ih _ h

-- The statements of a run with nobody in between.
def Prog.trace (t : TxId) : Prog K V T α → Store K V T → List (Store K V T × Store K V T)
  | .pure _, _ => []
  | .op st next, m =>
      match exec t st m with
      | some (r, m') => (m, m') :: (next r).trace t m'
      | none => []

theorem Execs.of_run {p : Prog K V T α} {m m' : Store K V T} {a : α} (hwf : m.WF)
    (h : p.run t m = some (a, m')) : Execs t p m (p.trace t m) (some a) m' := by
  induction p generalizing m with
  | pure b =>
      obtain ⟨rfl, rfl⟩ := Prod.mk.inj (Option.some.inj h)
      exact .ret _ _
  | op st next ih =>
      simp only [Prog.run] at h
      simp only [Prog.trace]
      cases hexec : exec t st m with
      | none => simp [hexec] at h
      | some r =>
          rw [hexec] at h
          exact .run (.refl hwf) hexec (ih r.1 ((exec_change hexec).wf hwf) h)

-- A triple over all executions: each statement of the program's own satisfies `G`, and `Q` holds
-- where it returns.
def Traced (t : TxId) (G : Store K V T → Store K V T → Prop) (P : Store K V T → Prop)
    (p : Prog K V T α) (Q : α → Store K V T → Prop) : Prop :=
  ∀ m steps out m', m.WF → P m → Execs t p m steps out m' →
    (∀ s ∈ steps, G s.1 s.2) ∧ ∀ a, out = some a → m'.WF ∧ Q a m'

namespace Traced

variable {G : Store K V T → Store K V T → Prop} {P P' : Store K V T → Prop}
  {p : Prog K V T α} {Q Q' : α → Store K V T → Prop}

theorem pure {a : α} (h : ∀ m, P m → Q a m) : Traced t G P (Pure.pure a) Q := by
  intro m steps out m' hwf hP hexecs
  cases hexecs with
  | ret => exact ⟨by simp, fun b hb => Option.some.inj hb ▸ ⟨hwf, h _ hP⟩⟩
  | cut => exact ⟨by simp, fun b hb => by simp at hb⟩

theorem stmt {st : Stmt K V T α} (hst : Steady t P)
    (hrun : ∀ m r m', m.WF → P m → exec t st m = some (r, m') → G m m' ∧ Q r m')
    (hskip : ∀ m r, P m → st.skipped = some r → Q r m) : Traced t G P (Txn.stmt st) Q := by
  intro m steps out m' hwf hP hexecs
  cases hexecs with
  | cut => exact ⟨by simp, fun b hb => by simp at hb⟩
  | run ho he h =>
      obtain ⟨hG, hQ⟩ := hrun _ _ _ ho.wf (hst _ _ ho hP) he
      have hwf' := (exec_change he).wf ho.wf
      cases h with
      | ret => exact ⟨by simpa using hG, fun b hb => Option.some.inj hb ▸ ⟨hwf', hQ⟩⟩
      | cut => exact ⟨by simpa using hG, fun b hb => by simp at hb⟩
  | skip hs h =>
      cases h with
      | ret => exact ⟨by simp, fun b hb => Option.some.inj hb ▸ ⟨hwf, hskip _ _ hP hs⟩⟩
      | cut => exact ⟨by simp, fun b hb => by simp at hb⟩

theorem bind {f : α → Prog K V T β} {R : β → Store K V T → Prop} (hp : Traced t G P p Q)
    (hf : ∀ a, Traced t G (Q a) (f a) R) : Traced t G P (p >>= f) R := by
  intro m steps out m' hwf hP hexecs
  rcases hexecs.of_bind with ⟨rfl, hfirst⟩ | ⟨a, m₁, steps₁, steps₂, rfl, hfirst, hrest⟩
  · exact ⟨(hp m _ _ _ hwf hP hfirst).1, fun b hb => by simp at hb⟩
  · obtain ⟨hG, hQ⟩ := hp m _ _ _ hwf hP hfirst
    obtain ⟨hwf₁, ha⟩ := hQ a rfl
    obtain ⟨hG', hR⟩ := hf a m₁ _ _ _ hwf₁ ha hrest
    refine ⟨fun s hs => ?_, hR⟩
    rcases List.mem_append.mp hs with hs | hs
    · exact hG s hs
    · exact hG' s hs

theorem pre (h : Traced t G P' p Q) (hP : ∀ m, P m → P' m) : Traced t G P p Q :=
  fun m steps out m' hwf hp => h m steps out m' hwf (hP m hp)

theorem post (h : Traced t G P p Q) (hQ : ∀ a m, Q a m → Q' a m) : Traced t G P p Q' := by
  intro m steps out m' hwf hP hexecs
  obtain ⟨hG, hres⟩ := h m steps out m' hwf hP hexecs
  exact ⟨hG, fun a ha => ⟨(hres a ha).1, hQ a m' (hres a ha).2⟩⟩

theorem given {φ : Prop} (h : φ → Traced t G P p Q) : Traced t G (fun m => φ ∧ P m) p Q :=
  fun m steps out m' hwf hp => h hp.1 m steps out m' hwf hp.2

theorem exists_pre {ι : Sort*} {P : ι → Store K V T → Prop} (h : ∀ i, Traced t G (P i) p Q) :
    Traced t G (fun m => ∃ i, P i m) p Q :=
  fun m steps out m' hwf ⟨i, hp⟩ => h i m steps out m' hwf hp

end Traced

section Rows

variable {m m' : Store K V T} {k : K}

theorem mine_own_self (v : V k) : (m.own t k v).mine t k = some v := by
  rw [mine_eq_some, Store.own_cell_self]

theorem mine_own_ne (v : V k) {k' : K} (h : k' ≠ k) : (m.own t k v).mine t k' = m.mine t k' := by
  unfold Store.mine
  rw [Store.own_cell_ne t k v m h]

theorem mine_insert_self (v : V k) : (m.insert t k v).mine t k = some v := mine_own_self v

theorem mine_insert_ne (v : V k) {k' : K} (h : k' ≠ k) :
    (m.insert t k v).mine t k' = m.mine t k' := mine_own_ne v h

theorem quiet_own (v : V k) : Quiet m (m.own t k v) := fun k' => Store.own_committed t k v m k'

theorem quiet_insert (v : V k) : Quiet m (m.insert t k v) := quiet_own v

end Rows

end Txn
