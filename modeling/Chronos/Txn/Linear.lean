import Chronos.Txn.Executions

namespace Txn

variable {K : Type} {V : K → Type} {T C : Type} {α β : Type}

section Linear

variable [DecidableEq K]

-- One of the steps does it all: those before it publish nothing, and `S` holds of those after it.
def LinearAt (R S : Store K V T → Store K V T → Prop) (steps : List (Store K V T × Store K V T)) :
    Prop :=
  ∃ before x after, steps = before ++ x :: after ∧ (∀ y ∈ before, Quiet y.1 y.2) ∧ R x.1 x.2 ∧
    ∀ y ∈ after, S y.1 y.2

variable (t : TxId) (A : Store K V T → Prop) (R : α → Store K V T → Store K V T → Prop)
  (S : Store K V T → Store K V T → Prop)

-- What is left of a program that is to return `a`: each step satisfies `S`. `A` is what its
-- statements find.
def Settles (a : α) (p : Prog K V T α) (m : Store K V T) : Prop :=
  ∀ steps out m', Execs t p m steps out m' → (∀ x ∈ steps, A x.1) →
    (∀ x ∈ steps, S x.1 x.2) ∧ ∀ b, out = some b → b = a

-- Each execution that returns `a` takes effect in one step with `R a`; one that is cut off has
-- done the same or published nothing.
def Linear (p : Prog K V T α) (m : Store K V T) : Prop :=
  ∀ steps out m', Execs t p m steps out m' → (∀ x ∈ steps, A x.1) →
    (∃ a, LinearAt (R a) S steps ∧ ∀ b, out = some b → b = a) ∨
      out = none ∧ ∀ x ∈ steps, Quiet x.1 x.2

variable {t A R S} {a : α} {st : Stmt K V T β} {next : β → Prog K V T α} {m : Store K V T}

theorem Settles.pure : Settles t A S a (.pure a) m := by
  intro steps out m' hexecs _
  cases hexecs with
  | ret => exact ⟨by simp, fun b hb => (Option.some.inj hb).symm⟩
  | cut => exact ⟨by simp, fun b hb => by cases hb⟩

theorem Settles.op (hskip : st.skipped = none)
    (h : ∀ m₁ r m₂, Others t m m₁ → A m₁ → exec t st m₁ = some (r, m₂) →
      S m₁ m₂ ∧ Settles t A S a (next r) m₂) : Settles t A S a (.op st next) m := by
  intro steps out m' hexecs hA
  cases hexecs with
  | cut => exact ⟨by simp, fun b hb => by cases hb⟩
  | run ho he hrest =>
      rw [List.forall_mem_cons] at hA ⊢
      obtain ⟨hS, hsettles⟩ := h _ _ _ ho hA.1 he
      obtain ⟨hsteps, hout⟩ := hsettles _ _ _ hrest hA.2
      exact ⟨⟨hS, hsteps⟩, hout⟩
  | skip hs hrest =>
      rw [hskip] at hs
      cases hs

-- A statement is a step on the way, or the one that matters.
theorem Linear.op (hskip : st.skipped = none)
    (h : ∀ m₁ r m₂, Others t m m₁ → A m₁ → exec t st m₁ = some (r, m₂) →
      Quiet m₁ m₂ ∧ Linear t A R S (next r) m₂ ∨
        ∃ a, R a m₁ m₂ ∧ Settles t A S a (next r) m₂) : Linear t A R S (.op st next) m := by
  intro steps out m' hexecs hA
  cases hexecs with
  | cut => exact .inr ⟨rfl, by simp⟩
  | run ho he hrest =>
      rw [List.forall_mem_cons] at hA
      rcases h _ _ _ ho hA.1 he with ⟨hquiet, hlinear⟩ | ⟨a, hR, hsettles⟩
      · rcases hlinear _ _ _ hrest hA.2 with
          ⟨a, ⟨before, x, after, hsteps, hbefore, hx, hafter⟩, hout⟩ | ⟨hout, hsteps⟩
        · refine .inl ⟨a, ⟨_ :: before, x, after, by rw [hsteps]; rfl, ?_, hx, hafter⟩, hout⟩
          exact List.forall_mem_cons.mpr ⟨hquiet, hbefore⟩
        · exact .inr ⟨hout, List.forall_mem_cons.mpr ⟨hquiet, hsteps⟩⟩
      · obtain ⟨hsteps, hout⟩ := hsettles _ _ _ hrest hA.2
        exact .inl ⟨a, ⟨[], _, _, rfl, by simp, hR, hsteps⟩, hout⟩
  | skip hs hrest =>
      rw [hskip] at hs
      cases hs

-- The same of an execution whose first statement has read the clock.
def Linearized (R : T → α → Store K V T → Store K V T → Prop)
    (S : Store K V T → Store K V T → Prop) (steps : List (Store K V T × Store K V T))
    (out : Option α) : Prop :=
  (∃ a x rest, steps = x :: rest ∧ Quiet x.1 x.2 ∧ LinearAt (R x.1.clock a) S rest ∧
    ∀ b, out = some b → b = a) ∨ out = none ∧ ∀ x ∈ steps, Quiet x.1 x.2

omit [DecidableEq K] in
theorem Linearized.mono {R R' : T → α → Store K V T → Store K V T → Prop}
    {S : Store K V T → Store K V T → Prop} {steps : List (Store K V T × Store K V T)}
    {out : Option α} (h : Linearized R S steps out) (hR : ∀ now a m m', R now a m m' → R' now a m m') :
    Linearized R' S steps out := by
  rcases h with ⟨a, x, rest, hsteps, hx, ⟨before, y, after, hrest, hbefore, hy, hafter⟩, hout⟩ | h
  · exact .inl ⟨a, x, rest, hsteps, hx, ⟨before, y, after, hrest, hbefore, hR _ _ _ _ hy, hafter⟩, hout⟩
  · exact .inr h

theorem Linear.of_begin {R : T → α → Store K V T → Store K V T → Prop} {next : T → Prog K V T α}
    (h : ∀ m₁, Others t m m₁ → A m₁ → Linear t A (R m₁.clock) S (next m₁.clock) m₁)
    {steps : List (Store K V T × Store K V T)} {out : Option α} {m' : Store K V T}
    (hexecs : Execs t (.op .begin next) m steps out m') (hA : ∀ x ∈ steps, A x.1) :
    Linearized R S steps out := by
  cases hexecs with
  | cut => exact .inr ⟨rfl, by simp⟩
  | run ho he hrest =>
      simp only [exec, Option.some.injEq, Prod.mk.injEq] at he
      obtain ⟨rfl, rfl⟩ := he
      rw [List.forall_mem_cons] at hA
      rcases h _ ho hA.1 _ _ _ hrest hA.2 with ⟨a, hlinear, hout⟩ | ⟨hout, hsteps⟩
      · exact .inl ⟨a, _, _, rfl, quiet_refl _, hlinear, hout⟩
      · exact .inr ⟨hout, List.forall_mem_cons.mpr ⟨quiet_refl _, hsteps⟩⟩
  | skip hs hrest => cases hs

end Linear

section Trails

variable [DecidableEq K] {t : TxId}

-- An execution as far as it has come.
inductive Trail (t : TxId) (p : Prog K V T α) (m : Store K V T) :
    List (Store K V T × Store K V T) → Prog K V T α → Store K V T → Prop
  | refl : Trail t p m [] p m
  | run {β : Type} {st : Stmt K V T β} {next : β → Prog K V T α} {m₁ m₂ m₃ : Store K V T} {r : β}
      {steps : List (Store K V T × Store K V T)} (h : Trail t p m steps (.op st next) m₁)
      (ho : Others t m₁ m₂) (he : exec t st m₂ = some (r, m₃)) :
      Trail t p m (steps ++ [(m₂, m₃)]) (next r) m₃
  | skip {β : Type} {st : Stmt K V T β} {next : β → Prog K V T α} {m₁ : Store K V T} {r : β}
      {steps : List (Store K V T × Store K V T)} (h : Trail t p m steps (.op st next) m₁)
      (hs : st.skipped = some r) : Trail t p m steps (next r) m₁

theorem Trail.execs {p q : Prog K V T α} {m m₁ m' : Store K V T} {out : Option α}
    {steps rest : List (Store K V T × Store K V T)} (h : Trail t p m steps q m₁)
    (hrest : Execs t q m₁ rest out m') : Execs t p m (steps ++ rest) out m' := by
  induction h generalizing rest with
  | refl => exact hrest
  | run _ ho he ih =>
      rw [List.append_assoc]
      exact ih (.run ho he hrest)
  | skip _ hs ih => exact ih (.skip hs hrest)

end Trails

section Paths

variable [DecidableEq K] [LE T] [DecidableLE T] {sys : System K V T C α} {s s' : Pool K V T C α}

-- A run with the steps it consists of.
inductive Path (sys : System K V T C α) (s : Pool K V T C α) :
    List (Pool K V T C α × Event T C × Pool K V T C α) → Pool K V T C α → Prop
  | refl : Path sys s [] s
  | tail {path : List (Pool K V T C α × Event T C × Pool K V T C α)} {s₁ s₂ : Pool K V T C α}
      {ev : Event T C} (h : Path sys s path s₁) (hstep : sys.step s₁ ev = some s₂) :
      Path sys s (path ++ [(s₁, ev, s₂)]) s₂

-- The statement that a transaction executes in a step.
def ownStep (t : TxId) (s s' : Pool K V T C α) : Event T C → List (Store K V T × Store K V T)
  | .run u => if u = t then [(s.mem, s'.mem)] else []
  | .tick _ => []
  | .start _ _ => []
  | .skip _ => []
  | .abort _ => []

def own (t : TxId) (path : List (Pool K V T C α × Event T C × Pool K V T C α)) :
    List (Store K V T × Store K V T) :=
  path.flatMap fun x => ownStep t x.1 x.2.2 x.2.1

variable {path : List (Pool K V T C α × Event T C × Pool K V T C α)} {t : TxId}
  {steps : List (Store K V T × Store K V T)}

omit [DecidableEq K] [LE T] [DecidableLE T] in
theorem mem_ownStep {ev : Event T C} {x : Store K V T × Store K V T}
    (h : x ∈ ownStep t s s' ev) : x.1 = s.mem := by
  cases ev with
  | run u =>
      simp only [ownStep] at h
      split at h
      · rw [List.mem_singleton.mp h]
      · cases h
  | _ => cases h

omit [DecidableEq K] [LE T] [DecidableLE T] in
theorem own_tail (t : TxId) (ev : Event T C) :
    own t (path ++ [(s, ev, s')]) = own t path ++ ownStep t s s' ev := by
  simp [own]

theorem Path.reaches (h : Path sys s path s') : Reaches sys.step (fun _ _ _ => True) s s' := by
  induction h with
  | refl => exact .refl
  | tail _ hstep ih => exact .tail ih hstep trivial

theorem Reaches.exists_path {ok : Pool K V T C α → Event T C → Pool K V T C α → Prop}
    (h : Reaches sys.step ok s s') : ∃ path, Path sys s path s' := by
  induction h with
  | refl => exact ⟨[], .refl⟩
  | tail _ hstep _ ih =>
      obtain ⟨path, hpath⟩ := ih
      exact ⟨_, .tail hpath hstep⟩

-- The statements have found stores of the run.
theorem Path.mem_own (h : Path sys s path s') {x : Store K V T × Store K V T}
    (hx : x ∈ own t path) : ∃ s₁, Reaches sys.step (fun _ _ _ => True) s s₁ ∧ s₁.mem = x.1 := by
  induction h with
  | refl => cases hx
  | @tail _ s₁ s₂ ev hs hstep ih =>
      rw [own_tail, List.mem_append] at hx
      rcases hx with hx | hx
      · exact ih hx
      · exact ⟨s₁, hs.reaches, (mem_ownStep hx).symm⟩

-- The statements of a transaction, in a run in whose course it has begun, are an execution of its
-- program.
structure Followed (sys : System K V T C α) (t : TxId) (steps : List (Store K V T × Store K V T))
    (s : Pool K V T C α) : Prop where
  unmade : s.thread t = none → steps = []
  made : ∀ c rest, s.thread t = some ⟨c, rest⟩ → ∃ m₀ q m₁, m₀.WF ∧ (m₀.mine t = fun _ => none) ∧
    Trail t (sys.body t c) m₀ steps q m₁ ∧ ∀ p, rest = some p → q = p ∧ Others t m₁ s.mem

omit [LE T] [DecidableLE T] in
theorem Followed.others (h : Followed sys t steps s) (hsame : s'.thread t = s.thread t)
    (ho : Others t s.mem s'.mem) : Followed sys t steps s' where
  unmade hnone := h.unmade (hsame ▸ hnone)
  made c rest hrest := by
    obtain ⟨m₀, q, m₁, hwf, hmine, htrail, hq⟩ := h.made c rest (hsame ▸ hrest)
    exact ⟨m₀, q, m₁, hwf, hmine, htrail, fun p hp => ⟨(hq p hp).1, (hq p hp).2.trans ho⟩⟩

theorem Followed.step {ev : Event T C} (h : Followed sys t steps s) (hwf : s.mem.WF)
    (hopened : ∀ t, s.thread t ≠ none → t ∈ s.mem.opened)
    (hheld : ∀ k t v, (s.mem.cell k).pending = some (t, v) → t ∈ s.mem.opened)
    (hstep : sys.step s ev = some s') :
    Followed sys t (steps ++ ownStep t s s' ev) s' := by
  have hstill : ∀ (u : TxId) (c : C) (rest : Option (Prog K V T α)) (m : Store K V T), t ≠ u →
      Frame u s.mem m → m.WF → Followed sys t steps (s.set u c rest m) := by
    intro u c rest m hne hf hwf'
    exact h.others (Pool.set_thread_ne s c rest m hne) (hf.others hne hwf')
  cases System.steps_of_step hstep with
  | tick now hnow =>
      rw [ownStep, List.append_nil]
      exact h.others rfl ⟨⟨hwf.nodup, hwf.absent⟩, rfl, fun _ _ => rfl⟩
  | start u c hfresh hmay =>
      rw [ownStep, List.append_nil]
      have hwf' : (s.mem.openTx u).WF := ⟨hwf.nodup, hwf.absent⟩
      by_cases heq : t = u
      · subst heq
        have hnone : s.thread t = none := by
          by_contra hne
          exact hfresh (hopened t hne)
        refine ⟨fun hnone' => by simp at hnone', fun d rest hrest => ?_⟩
        rw [Pool.set_thread_self, Option.some.injEq, Thread.mk.injEq] at hrest
        obtain ⟨rfl, rfl⟩ := hrest
        refine ⟨s.mem.openTx t, _, _, hwf', ?_, h.unmade hnone ▸ .refl, fun p hp =>
          ⟨Option.some.inj hp, .refl hwf'⟩⟩
        exact funext fun k => mine_eq_none.mpr fun v hv => hfresh (hheld k t v hv)
      · exact h.others (Pool.set_thread_ne s c _ _ heq) ⟨hwf', rfl, fun _ _ => rfl⟩
  | run u c st next r m hu he =>
      by_cases heq : t = u
      · subst heq
        rw [ownStep, if_pos rfl]
        refine ⟨fun hnone => by simp at hnone, fun d rest hrest => ?_⟩
        rw [Pool.set_thread_self, Option.some.injEq, Thread.mk.injEq] at hrest
        obtain ⟨rfl, rfl⟩ := hrest
        obtain ⟨m₀, q, m₁, hwf₀, hmine, htrail, hq⟩ := h.made c _ hu
        obtain ⟨rfl, ho⟩ := hq _ rfl
        have hwf' : m.WF := (exec_change he).wf hwf
        exact ⟨m₀, _, m, hwf₀, hmine, .run htrail ho he, fun p hp =>
          ⟨Option.some.inj hp, .refl hwf'⟩⟩
      · rw [ownStep, if_neg (Ne.symm heq), List.append_nil]
        exact hstill u c _ m heq ((exec_change he).frame hwf) ((exec_change he).wf hwf)
  | skip u c st next r hu hr =>
      rw [ownStep, List.append_nil]
      by_cases heq : t = u
      · subst heq
        refine ⟨fun hnone => by simp at hnone, fun d rest hrest => ?_⟩
        rw [Pool.set_thread_self, Option.some.injEq, Thread.mk.injEq] at hrest
        obtain ⟨rfl, rfl⟩ := hrest
        obtain ⟨m₀, q, m₁, hwf₀, hmine, htrail, hq⟩ := h.made c _ hu
        obtain ⟨rfl, ho⟩ := hq _ rfl
        exact ⟨m₀, _, m₁, hwf₀, hmine, .skip htrail hr, fun p hp => ⟨Option.some.inj hp, ho⟩⟩
      · exact hstill u c _ _ heq (.refl u s.mem) hwf
  | abort u c st next hu =>
      rw [ownStep, List.append_nil]
      by_cases heq : t = u
      · subst heq
        refine ⟨fun hnone => by simp at hnone, fun d rest hrest => ?_⟩
        rw [Pool.set_thread_self, Option.some.injEq, Thread.mk.injEq] at hrest
        obtain ⟨rfl, rfl⟩ := hrest
        obtain ⟨m₀, q, m₁, hwf₀, hmine, htrail, -⟩ := h.made c _ hu
        exact ⟨m₀, q, m₁, hwf₀, hmine, htrail, fun p hp => by cases hp⟩
      · exact hstill u c _ _ heq (.rollback u s.mem) hwf.rollback

-- What a call has executed in the course of a run is an execution of its program.
theorem Path.execs (hpath : Path sys s path s') (ht : t ∉ s.mem.opened)
    (hinv : ∀ s₁, Reaches sys.step (fun _ _ _ => True) s s₁ → s₁.mem.WF ∧
      (∀ t, s₁.thread t ≠ none → t ∈ s₁.mem.opened) ∧
      ∀ k t v, (s₁.mem.cell k).pending = some (t, v) → t ∈ s₁.mem.opened)
    {c : C} {rest : Option (Prog K V T α)} (hc : s'.thread t = some ⟨c, rest⟩) :
    ∃ m, m.WF ∧ (m.mine t = fun _ => none) ∧
      (∃ m', Execs t (sys.body t c) m (own t path) none m') ∧
      ∀ a, rest = some (.pure a) → ∃ m', Execs t (sys.body t c) m (own t path) (some a) m' := by
  have hfollowed : Followed sys t (own t path) s' := by
    clear hc
    induction hpath with
    | refl =>
        have hnone : s.thread t = none := by
          by_contra hne
          exact ht ((hinv s .refl).2.1 t hne)
        exact ⟨fun _ => rfl, fun c rest hrest => by rw [hnone] at hrest; cases hrest⟩
    | @tail path s₁ s₂ ev hs hstep ih =>
        obtain ⟨hwf, hopened, hheld⟩ := hinv s₁ hs.reaches
        rw [own_tail]
        exact ih.step hwf hopened hheld hstep
  obtain ⟨m, q, m₁, hwf, hmine, htrail, hq⟩ := hfollowed.made c rest hc
  refine ⟨m, hwf, hmine, ?_, fun a ha => ?_⟩
  · have hexecs := htrail.execs (.cut q m₁)
    rw [List.append_nil] at hexecs
    exact ⟨_, hexecs⟩
  · obtain ⟨rfl, -⟩ := hq _ ha
    have hexecs := htrail.execs (.ret a m₁)
    rw [List.append_nil] at hexecs
    exact ⟨_, hexecs⟩

end Paths

end Txn
