import Chronos.Txn.Alone
import Chronos.Txn.Triple

namespace Txn

variable {K : Type} {V : K → Type} {T : Type} {α β : Type} [DecidableEq K]
variable {t : TxId} {m : Store K V T}

theorem Execs.yields {p : Prog K V T α} {φ : α → Prop} {m' : Store K V T} {a : α}
    {steps : List (Store K V T × Store K V T)} (h : Execs t p m steps (some a) m')
    (hp : p.Yields φ) : φ a := by
  induction p generalizing m steps with
  | pure b =>
      cases h
      exact hp
  | op st next ih =>
      cases h with
      | run ho he h => exact ih _ h (hp _)
      | skip hs h => exact ih _ h (hp _)

-- A triple over the executions that return, with the others at work in between, where `A` is what
-- every statement of the program's own has found.
def Observed (t : TxId) (A P : Store K V T → Prop) (p : Prog K V T α)
    (Q : α → Store K V T → Prop) : Prop :=
  ∀ m steps a m', m.WF → P m → (∀ s ∈ steps, A s.1) → Execs t p m steps (some a) m' →
    m'.WF ∧ Q a m'

namespace Observed

variable {A P P' : Store K V T → Prop} {p : Prog K V T α} {Q Q' : α → Store K V T → Prop}

theorem pure {a : α} (h : ∀ m, P m → Q a m) : Observed t A P (Pure.pure a) Q := by
  intro m steps b m' hwf hP _ hexecs
  cases hexecs
  exact ⟨hwf, h _ hP⟩

theorem stmt {st : Stmt K V T α} (hst : Steady t P)
    (hrun : ∀ m r m', m.WF → A m → P m → exec t st m = some (r, m') → Q r m')
    (hskip : ∀ m r, P m → st.skipped = some r → Q r m) : Observed t A P (Txn.stmt st) Q := by
  intro m steps a m' hwf hP hA hexecs
  cases hexecs with
  | run ho he h =>
      have hQ := hrun _ _ _ ho.wf (hA _ List.mem_cons_self) (hst _ _ ho hP) he
      cases h
      exact ⟨(exec_change he).wf ho.wf, hQ⟩
  | skip hs h =>
      cases h
      exact ⟨hwf, hskip _ _ hP hs⟩

theorem bind {f : α → Prog K V T β} {R : β → Store K V T → Prop} (hp : Observed t A P p Q)
    (hf : ∀ a, Observed t A (Q a) (f a) R) : Observed t A P (p >>= f) R := by
  intro m steps b m' hwf hP hA hexecs
  rcases hexecs.of_bind with ⟨hnone, -⟩ | ⟨a, m₁, steps₁, steps₂, rfl, hfirst, hrest⟩
  · cases hnone
  · obtain ⟨hwf₁, hQ⟩ := hp m _ a m₁ hwf hP (fun s hs => hA s (List.mem_append_left _ hs)) hfirst
    exact hf a m₁ _ b m' hwf₁ hQ (fun s hs => hA s (List.mem_append_right _ hs)) hrest

theorem pre (h : Observed t A P' p Q) (hP : ∀ m, P m → P' m) : Observed t A P p Q :=
  fun m steps a m' hwf hp => h m steps a m' hwf (hP m hp)

theorem via (S : Store K V T → Prop) (h : Observed t A S p Q) (hP : ∀ m, P m → S m) :
    Observed t A P p Q := h.pre hP

theorem post (h : Observed t A P p Q) (hQ : ∀ a m, Q a m → Q' a m) : Observed t A P p Q' := by
  intro m steps a m' hwf hP hA hexecs
  obtain ⟨hwf', hq⟩ := h m steps a m' hwf hP hA hexecs
  exact ⟨hwf', hQ a m' hq⟩

theorem given {φ : Prop} (h : φ → Observed t A P p Q) : Observed t A (fun m => φ ∧ P m) p Q :=
  fun m steps a m' hwf hp => h hp.1 m steps a m' hwf hp.2

theorem exists_pre {ι : Sort*} {P : ι → Store K V T → Prop} (h : ∀ i, Observed t A (P i) p Q) :
    Observed t A (fun m => ∃ i, P i m) p Q :=
  fun m steps a m' hwf ⟨i, hp⟩ => h i m steps a m' hwf hp

-- What the shape of the program says of its result.
theorem and_yields {φ : α → Prop} (hp : p.Yields φ) (h : Observed t A P p Q) :
    Observed t A P p fun a m => φ a ∧ Q a m := by
  intro m steps a m' hwf hP hA hexecs
  obtain ⟨hwf', hQ⟩ := h m steps a m' hwf hP hA hexecs
  exact ⟨hwf', hexecs.yields hp, hQ⟩

-- A query is answered from a snapshot that is one of those found.
theorem select {query : View K V → β} {φ : β → Prop} (hst : Steady t P)
    (h : ∀ m, m.WF → A m → φ (query (m.view t))) :
    Observed t A P (Txn.stmt (.select query)) fun r m => φ r ∧ P m := by
  refine .stmt hst (fun m r m' hwf hA hP he => ?_) fun m r _ hs => nomatch hs
  obtain ⟨rfl, rfl⟩ := Prod.mk.inj (Option.some.inj he)
  exact ⟨h m hwf hA, hP⟩

-- A row is locked as it was seen, with or without its being returned, or passed over.
theorem lock {k : K} {cond : V k → Bool} {R : V k → Store K V T → Prop} (hst : Steady t P)
    (hkeep : ∀ m v, m.WF → A m → P m → (m.cell k).seen t = some v → cond v = false →
      P (m.own t k v))
    (h : ∀ m v, m.WF → A m → P m → (m.cell k).seen t = some v → cond v = true →
      R v (m.own t k v)) :
    Observed t A P (Txn.stmt (.lock k cond)) fun r m =>
      r = none ∧ P m ∨ ∃ v, r = some v ∧ R v m := by
  refine .stmt hst (fun m r m' hwf hA hP he => ?_) fun m r hP hs => ?_
  · rcases exec_lock he with ⟨rfl, rfl⟩ | ⟨v, hseen, -, rfl, ⟨hcond, rfl⟩ | ⟨hcond, rfl⟩⟩
    · exact .inl ⟨rfl, hP⟩
    · exact .inl ⟨rfl, hkeep m v hwf hA hP hseen hcond⟩
    · exact .inr ⟨v, rfl, h m v hwf hA hP hseen hcond⟩
  · obtain rfl := Option.some.inj hs
    exact .inl ⟨rfl, hP⟩

-- The same where the lock is no matter: the row was in one of the snapshots found.
theorem lock_seen {k : K} {cond : V k → Bool} (hst : Steady t P)
    (hown : ∀ m v, P m → P (m.own t k v)) :
    Observed t A P (Txn.stmt (.lock k cond)) fun r m =>
      (∀ v, r = some v → ∃ m₀, A m₀ ∧ (m₀.view t).row k = some v) ∧ P m := by
  refine .post (.lock (R := fun v m => (∃ m₀, A m₀ ∧ (m₀.view t).row k = some v) ∧ P m) hst
    (fun m v _ _ hP _ _ => hown m v hP)
    fun m v _ hA hP hseen _ => ⟨⟨m, hA, hseen⟩, hown m v hP⟩) fun r m h => ?_
  rcases h with ⟨rfl, hP⟩ | ⟨v, rfl, hfound, hP⟩
  · exact ⟨fun v hv => (nomatch hv), hP⟩
  · exact ⟨fun w hw => Option.some.inj hw ▸ hfound, hP⟩

-- A row that is held is written.
theorem write {k : K} {set : V k → V k} {v : V k} {Q : Store K V T → Prop} (hst : Steady t P)
    (hheld : ∀ m, P m → m.mine t k = some v) (h : ∀ m, P m → Q (m.own t k (set v))) :
    Observed t A P (Txn.stmt (.write k set)) fun r m => r = some (set v) ∧ Q m := by
  refine .stmt hst (fun m r m' hwf hA hP he => ?_) fun m r _ hs => nomatch hs
  have hp := mine_eq_some.mp (hheld m hP)
  simp only [exec, hp, if_true] at he
  obtain ⟨rfl, rfl⟩ := Prod.mk.inj (Option.some.inj he)
  exact ⟨rfl, h m hP⟩

end Observed

section Alone

-- Statements that never wait.
inductive Stmt.Ready : {β : Type} → Stmt K V T β → Prop
  | begin : Ready .begin
  | select {β : Type} (query : View K V → β) : Ready (.select query)
  | lock (k : K) (cond : V k → Bool) : Ready (.lock k cond)
  | write (k : K) (set : V k → V k) : Ready (.write k set)
  | commit : Ready .commit
  | rollback : Ready .rollback

theorem Stmt.Ready.exec {st : Stmt K V T β} (h : st.Ready) (m : Store K V T) :
    ∃ r m', Txn.exec t st m = some (r, m') := by
  cases h with
  | lock k cond =>
      simp only [Txn.exec]
      split
      · split <;> exact ⟨_, _, rfl⟩
      · exact ⟨_, _, rfl⟩
  | write k set =>
      simp only [Txn.exec]
      split
      · split
        · exact ⟨_, _, rfl⟩
        · exact ⟨_, _, rfl⟩
      · exact ⟨_, _, rfl⟩
  | _ => exact ⟨_, _, rfl⟩

-- What a transaction sees is the same once it has locked a row.
theorem view_lock {k : K} {cond : V k → Bool} {r : Option (V k)} {m' : Store K V T}
    (h : exec t (.lock k cond) m = some (r, m')) : m'.view t = m.view t := by
  rcases exec_lock h with ⟨-, rfl⟩ | ⟨v, hseen, -, rfl, -⟩
  · rfl
  · rw [view_own, View.put_eq_self (v := m.view t) hseen]

-- A statement that keeps `I` of what its transaction sees.
def Stmt.Keeps (t : TxId) (I : View K V → Prop) (st : Stmt K V T β) : Prop :=
  ∀ (m : Store K V T) r m', m.WF → I (m.view t) → Txn.exec t st m = some (r, m') → I (m'.view t)

theorem Stmt.keeps_select {I : View K V → Prop} (query : View K V → β) :
    (Stmt.select query : Stmt K V T β).Keeps t I := by
  intro m r m' _ hI he
  obtain ⟨-, rfl⟩ := Prod.mk.inj (Option.some.inj he)
  exact hI

theorem Stmt.keeps_lock {I : View K V → Prop} (k : K) (cond : V k → Bool) :
    (Stmt.lock k cond : Stmt K V T _).Keeps t I := by
  intro m r m' _ hI he
  rw [view_lock he]
  exact hI

theorem Stmt.keeps_write {I : View K V → Prop} {k : K} {set : V k → V k}
    (h : ∀ view row, I view → view.row k = some row → I (view.put k (set row))) :
    (Stmt.write k set : Stmt K V T _).Keeps t I := by
  intro m r m' _ hI he
  rcases exec_write he with ⟨-, rfl, -⟩ | ⟨v, hp, -, rfl⟩
  · exact hI
  · rw [view_own]
    exact h _ _ hI (Cell.seen_of_held hp)

-- With nobody in between a program of statements that never wait returns, and finds at each of
-- them what they all keep.
theorem Execs.of_ready {I : View K V → Prop} {p : Prog K V T α}
    (hp : p.All fun st => st.Ready ∧ st.Keeps t I) (hwf : m.WF) (hI : I (m.view t)) :
    ∃ steps a m', p.run t m = some (a, m') ∧ Execs t p m steps (some a) m' ∧
      ∀ s ∈ steps, I (s.1.view t) := by
  induction p generalizing m with
  | pure a => exact ⟨[], a, m, rfl, .ret a m, fun s hs => nomatch hs⟩
  | op st next ih =>
      obtain ⟨⟨hready, hkeeps⟩, hnext⟩ := hp
      obtain ⟨r, m₁, he⟩ := hready.exec (t := t) m
      have hwf₁ := (exec_change he).wf hwf
      obtain ⟨steps, a, m', hrun, hexecs, hsteps⟩ :=
        ih r (hnext r) hwf₁ (hkeeps m r m₁ hwf hI he)
      refine ⟨(m, m₁) :: steps, a, m', ?_, .run (.refl hwf) he hexecs, fun s hs => ?_⟩
      · rw [Prog.run, he]
        exact hrun
      · rcases List.mem_cons.mp hs with rfl | hs
        · exact hI
        · exact hsteps s hs

end Alone

end Txn
