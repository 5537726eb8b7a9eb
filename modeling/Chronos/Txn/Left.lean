import Chronos.Txn.Rows
import Mathlib.Order.Basic

namespace Txn

variable {K : Type} {V : K → Type} {T C : Type} {α β : Type} [DecidableEq K]

-- What can be left of a program whose statements have executed in stores with `A`.
inductive Left (A : Store K V T → Prop) (t : TxId) (p : Prog K V T α) : Prog K V T α → Prop
  | refl : Left A t p p
  | run {β : Type} {st : Stmt K V T β} {next : β → Prog K V T α} {m m' : Store K V T} {r : β}
      (h : Left A t p (.op st next)) (hA : A m) (he : exec t st m = some (r, m')) :
      Left A t p (next r)
  | skip {β : Type} {st : Stmt K V T β} {next : β → Prog K V T α} {r : β}
      (h : Left A t p (.op st next)) (hr : st.skipped = some r) : Left A t p (next r)

namespace Left

variable {A B : Store K V T → Prop} {t : TxId} {p q : Prog K V T α}

theorem mono (h : Left A t p q) (hAB : ∀ m, A m → B m) : Left B t p q := by
  induction h with
  | refl => exact .refl
  | run _ hA he ih => exact .run ih (hAB _ hA) he
  | skip _ hr ih => exact .skip ih hr

-- The first statement of the program has not executed, or its result has been found in a store.
theorem of_op {st : Stmt K V T β} {next : β → Prog K V T α} (hst : st.skipped = none)
    (h : Left A t (.op st next) q) :
    q = .op st next ∨ ∃ m r m', A m ∧ exec t st m = some (r, m') ∧ Left A t (next r) q := by
  induction h with
  | refl => exact .inl rfl
  | run h hA he ih =>
      refine .inr ?_
      rcases ih with heq | ⟨m, r, m', hA₁, he₁, hrest⟩
      · cases heq
        exact ⟨_, _, _, hA, he, .refl⟩
      · exact ⟨m, r, m', hA₁, he₁, .run hrest hA he⟩
  | skip h hr ih =>
      refine .inr ?_
      rcases ih with heq | ⟨m, r, m', hA₁, he₁, hrest⟩
      · cases heq
        rw [hst] at hr
        cases hr
      · exact ⟨m, r, m', hA₁, he₁, .skip hrest hr⟩

theorem of_pure {a b : α} (h : Left A t (.pure a) (.pure b)) : b = a := by
  have hall : ∀ q, Left A t (.pure a) q → q = .pure a := by
    intro q hq
    induction hq with
    | refl => rfl
    | run _ _ _ ih => cases ih
    | skip _ _ ih => cases ih
  cases hall _ h
  rfl

section Statements

variable {a : α}

theorem of_begin {next : T → Prog K V T α} (h : Left A t (.op .begin next) (.pure a)) :
    ∃ m, A m ∧ Left A t (next m.clock) (.pure a) := by
  rcases of_op rfl h with heq | ⟨m, r, m', hA, he, hrest⟩
  · cases heq
  · simp only [exec, Option.some.injEq, Prod.mk.injEq] at he
    obtain ⟨rfl, rfl⟩ := he
    exact ⟨m, hA, hrest⟩

theorem of_select {query : View K V → β} {next : β → Prog K V T α}
    (h : Left A t (.op (.select query) next) (.pure a)) :
    ∃ m, A m ∧ Left A t (next (query (m.view t))) (.pure a) := by
  rcases of_op rfl h with heq | ⟨m, r, m', hA, he, hrest⟩
  · cases heq
  · simp only [exec, Option.some.injEq, Prod.mk.injEq] at he
    obtain ⟨rfl, rfl⟩ := he
    exact ⟨m, hA, hrest⟩

theorem of_rollback {next : Unit → Prog K V T α} (h : Left A t (.op .rollback next) (.pure a)) :
    Left A t (next ()) (.pure a) := by
  rcases of_op rfl h with heq | ⟨m, r, m', hA, he, hrest⟩
  · cases heq
  · exact hrest

end Statements

end Left

section Runs

variable [LE T] [DecidableLE T] {sys : System K V T C α} {s s' : Pool K V T C α}
  {ok : Pool K V T C α → Event T C → Pool K V T C α → Prop}

-- The stores a run has been through while a call was in progress.
def Visited (sys : System K V T C α) (ok : Pool K V T C α → Event T C → Pool K V T C α → Prop)
    (s s' : Pool K V T C α) (t : TxId) (c : C) (m : Store K V T) : Prop :=
  ∃ s₁, Reaches sys.step ok s s₁ ∧ Reaches sys.step ok s₁ s' ∧ s₁.calls t c ∧ s₁.mem = m

theorem Visited.tail {s'' : Pool K V T C α} {t : TxId} {c : C} {m : Store K V T} {ev : Event T C}
    (h : Visited sys ok s s' t c m) (hstep : sys.step s' ev = some s'') (hok : ok s' ev s'') :
    Visited sys ok s s'' t c m := by
  obtain ⟨s₁, hbefore, hafter, hcalls, rfl⟩ := h
  exact ⟨s₁, hbefore, .tail hafter hstep hok, hcalls, rfl⟩

-- A call that has been made in the course of a run has found what the run has been through.
theorem Reaches.left (hopen : ∀ t, s.thread t ≠ none → t ∈ s.mem.opened)
    (h : Reaches sys.step ok s s') {t : TxId} (ht : t ∉ s.mem.opened) {c : C}
    {p : Prog K V T α} (hp : s'.thread t = some ⟨c, some p⟩) :
    Left (Visited sys ok s s' t c) t (sys.body t c) p := by
  induction h generalizing p with
  | refl => exact absurd (hopen t (by simp [hp])) ht
  | @tail s₁ s₂ ev hs hstep hok ih =>
      have hsame : s₁.thread t = some ⟨c, some p⟩ →
          Left (Visited sys ok s s₂ t c) t (sys.body t c) p := by
        intro hp₁
        exact (ih hp₁).mono fun m hm => hm.tail hstep hok
      have hlast : s₁.calls t c → Visited sys ok s s₂ t c s₁.mem := fun hcalls =>
        ⟨s₁, hs, .tail .refl hstep hok, hcalls, rfl⟩
      have hset : ∀ (u : TxId) (d : C) (rest : Option (Prog K V T α)) (m : Store K V T),
          s₂ = s₁.set u d rest m → (t = u → rest = some p → c = d →
            Left (Visited sys ok s s₂ t c) t (sys.body t c) p) →
            Left (Visited sys ok s s₂ t c) t (sys.body t c) p := by
        rintro u d rest m rfl hmoved
        by_cases heq : t = u
        · subst heq
          rw [Pool.set_thread_self, Option.some.injEq, Thread.mk.injEq] at hp
          exact hmoved rfl hp.2 hp.1.symm
        · rw [Pool.set_thread_ne s₁ d rest m heq] at hp
          exact hsame hp
      cases System.steps_of_step hstep with
      | tick now hnow => exact hsame hp
      | start u d hfresh hmay =>
          refine hset u d _ _ rfl ?_
          rintro rfl hrest rfl
          exact Option.some.inj hrest ▸ .refl
      | run u d st next r m hu he =>
          refine hset u d _ m rfl ?_
          rintro rfl hrest rfl
          obtain rfl := Option.some.inj hrest
          exact .run ((ih hu).mono fun m hm => hm.tail hstep hok) (hlast ⟨_, hu⟩) he
      | skip u d st next r hu hr =>
          refine hset u d _ _ rfl ?_
          rintro rfl hrest rfl
          obtain rfl := Option.some.inj hrest
          exact .skip ((ih hu).mono fun m hm => hm.tail hstep hok) hr
      | abort u d st next hu =>
          refine hset u d _ _ rfl ?_
          rintro rfl hrest -
          cases hrest

end Runs

section Returned

variable [LE T] [DecidableLE T] {sys : System K V T C α} {s s' : Pool K V T C α}
  {ok : Pool K V T C α → Event T C → Pool K V T C α → Prop} {t : TxId} {c : C} {a : α}

-- A call that has returned is done.
theorem System.returned {ev : Event T C} (hopen : ∀ t, s.thread t ≠ none → t ∈ s.mem.opened)
    (hstep : sys.step s ev = some s') (ht : s.thread t = some ⟨c, some (.pure a)⟩) :
    s'.thread t = some ⟨c, some (.pure a)⟩ := by
  cases (System.steps_of_step hstep).thread t with
  | same heq => exact heq.trans ht
  | started d hev hfresh hmay h => exact absurd (hopen t (by simp [ht])) hfresh
  | advanced d st next r h h' =>
      rw [ht] at h
      cases h
  | cutOff d st next hev h h' =>
      rw [ht] at h
      cases h

end Returned

section Clock

variable [Preorder T] [DecidableLE T] {sys : System K V T C α} {s s' : Pool K V T C α}
  {ok : Pool K V T C α → Event T C → Pool K V T C α → Prop}

theorem Reaches.clock_le (h : Reaches sys.step ok s s') : s.mem.clock ≤ s'.mem.clock := by
  induction h with
  | refl => exact le_refl _
  | @tail s₁ s₂ ev _ hstep _ ih =>
      refine le_trans ih ?_
      cases System.steps_of_step hstep with
      | tick now hnow => exact hnow
      | start u d hfresh hmay => exact le_refl _
      | run u d st next r m hu he =>
          have hclock : m.clock = s₁.mem.clock := by
            cases exec_change he <;> rfl
          exact le_of_eq hclock.symm
      | skip u d st next r hu hr => exact le_refl _
      | abort u d st next hu => exact le_refl _

theorem Visited.clock_le {t : TxId} {c : C} {m : Store K V T} (h : Visited sys ok s s' t c m) :
    s.mem.clock ≤ m.clock ∧ m.clock ≤ s'.mem.clock := by
  obtain ⟨s₁, hbefore, hafter, -, rfl⟩ := h
  exact ⟨hbefore.clock_le, hafter.clock_le⟩

end Clock

end Txn
