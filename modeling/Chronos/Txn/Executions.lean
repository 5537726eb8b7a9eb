import Chronos.Txn.Traces
import Chronos.Txn.Shape

namespace Txn

variable {K : Type} {V : K → Type} {T C : Type} {α : Type} {t u : TxId} {m m₁ m₂ : Store K V T}

theorem Others.trans (h : Others t m m₁) (h' : Others t m₁ m₂) : Others t m m₂ where
  wf := h'.wf
  mine := h'.mine.trans h.mine
  committed k hk := by
    have hk' : m₁.mine t k ≠ none := by rwa [h.mine]
    exact (h'.committed k hk').trans (h.committed k hk)

-- What another transaction leaves of a store.
theorem Frame.others (h : Frame u m m₁) (hne : t ≠ u) (hwf : m₁.WF) : Others t m m₁ where
  wf := hwf
  mine := by
    funext k
    apply Option.ext
    intro v
    rw [mine_eq_some, mine_eq_some]
    exact ((h.cells k).other hne v).symm
  committed k hk := by
    obtain ⟨v, hv⟩ := Option.ne_none_iff_exists'.mp hk
    rw [(h.cells k).frame hne (mine_eq_some.mp hv)]

variable [DecidableEq K]

-- All that a call may still do satisfies `G`, whatever the others do meanwhile.
def Assures (t : TxId) (G : Store K V T → Store K V T → Prop) (p : Prog K V T α) (m : Store K V T) :
    Prop :=
  ∀ steps out m', Execs t p m steps out m' → ∀ s ∈ steps, G s.1 s.2

section Assures

variable {G : Store K V T → Store K V T → Prop} {p : Prog K V T α}

theorem Traced.assures {P : Store K V T → Prop} {Q : α → Store K V T → Prop} (h : Traced t G P p Q)
    (hwf : m.WF) (hP : P m) : Assures t G p m :=
  fun steps out m' hexecs => (h m steps out m' hwf hP hexecs).1

theorem Traced.guar {G' : Store K V T → Store K V T → Prop} {P : Store K V T → Prop}
    {Q : α → Store K V T → Prop} (h : Traced t G P p Q) (hG : ∀ m m', G m m' → G' m m') :
    Traced t G' P p Q := by
  intro m steps out m' hwf hP hexecs
  obtain ⟨hsteps, hout⟩ := h m steps out m' hwf hP hexecs
  exact ⟨fun s hs => hG s.1 s.2 (hsteps s hs), hout⟩

-- A program each of whose statements keeps the assertion.
theorem Traced.all {P : Store K V T → Prop} (hP : Steady t P)
    (h : p.All fun st => ∀ m r m', m.WF → P m → exec t st m = some (r, m') → G m m' ∧ P m') :
    Traced t G P p fun _ => P := by
  induction p with
  | pure a => exact .pure fun m hm => hm
  | op st next ih =>
      have hfirst : Traced t G P (Txn.stmt st) fun _ => P :=
        .stmt hP h.1 fun m r hm _ => hm
      exact hfirst.bind fun r => ih r (h.2 r)

-- The first statement may as well wait for the others.
theorem Execs.others (ho : Others t m m₁) {steps : List (Store K V T × Store K V T)}
    {out : Option α} {m' : Store K V T} (h : Execs t p m₁ steps out m') :
    ∃ out' m'', Execs t p m steps out' m'' := by
  induction p generalizing m₁ steps with
  | pure a =>
      cases h with
      | ret => exact ⟨_, _, .ret a m⟩
      | cut => exact ⟨_, _, .cut _ m⟩
  | op st next ih =>
      cases h with
      | cut => exact ⟨_, _, .cut _ m⟩
      | run ho' he h => exact ⟨_, _, .run (ho.trans ho') he h⟩
      | skip hs h =>
          obtain ⟨out', m'', h'⟩ := ih _ ho h
          exact ⟨out', m'', .skip hs h'⟩

theorem Assures.others (h : Assures t G p m) (ho : Others t m m₁) : Assures t G p m₁ := by
  intro steps out m' hexecs
  obtain ⟨out', m'', hexecs'⟩ := hexecs.others ho
  exact h steps out' m'' hexecs'

variable {β : Type} {st : Stmt K V T β} {next : β → Prog K V T α} {r : β}

theorem Assures.run (h : Assures t G (.op st next) m) (hwf : m.WF)
    (he : exec t st m = some (r, m₁)) : G m m₁ ∧ Assures t G (next r) m₁ := by
  constructor
  · exact h _ _ _ (.run (.refl hwf) he (.cut _ _)) (m, m₁) List.mem_cons_self
  · intro steps out m' hexecs s hs
    exact h _ _ _ (.run (.refl hwf) he hexecs) s (List.mem_cons_of_mem _ hs)

theorem Assures.skip (h : Assures t G (.op st next) m) (hr : st.skipped = some r) :
    Assures t G (next r) m :=
  fun steps out m' hexecs => h steps out m' (.skip hr hexecs)

end Assures

section Runs

variable [LE T] [DecidableLE T] {sys : System K V T C α} {s s' : Pool K V T C α} {ev : Event T C}
  {G : TxId → C → Store K V T → Store K V T → Prop} {c : C}

-- The calls in progress keep their guarantees in what is left of them.
structure Guarded (G : TxId → C → Store K V T → Store K V T → Prop) (s : Pool K V T C α) : Prop where
  wf : s.mem.WF
  opened : ∀ t, s.thread t ≠ none → t ∈ s.mem.opened
  held : ∀ k t v, (s.mem.cell k).pending = some (t, v) → s.thread t ≠ none
  keeps : ∀ t c p, s.thread t = some ⟨c, some p⟩ → Assures t (G t c) p s.mem

omit [LE T] [DecidableLE T] in
theorem Guarded.init (hwf : m.WF) (hfree : ∀ k, (m.cell k).pending = none) :
    Guarded G (Pool.init m : Pool K V T C α) where
  wf := hwf
  opened t ht := absurd rfl ht
  held k t v hv := by simp [Pool.init, hfree] at hv
  keeps t c p ht := by simp [Pool.init] at ht

omit [LE T] [DecidableLE T] in
-- A call moves on with `rest` left to run.
theorem Guarded.advance (h : Guarded G s) {rest₀ rest : Option (Prog K V T α)}
    (ht : s.thread t = some ⟨c, rest₀⟩) (hf : Frame t s.mem m₁) (hwf : m₁.WF)
    (hrest : ∀ p, rest = some p → Assures t (G t c) p m₁) : Guarded G (s.set t c rest m₁) where
  wf := hwf
  opened u hu := by
    rw [Pool.set_mem, hf.opened]
    apply h.opened
    intro hnone
    by_cases heq : u = t
    · rw [heq, ht] at hnone
      simp at hnone
    · exact hu (by rw [Pool.set_thread_ne s c rest m₁ heq, hnone])
  held k u v hv := by
    by_cases heq : u = t
    · subst heq
      simp
    · rw [Pool.set_thread_ne s c rest m₁ heq]
      exact h.held k u v (((hf.cells k).other heq v).mpr hv)
  keeps u d p hu := by
    by_cases heq : u = t
    · subst heq
      rw [Pool.set_thread_self, Option.some.injEq, Thread.mk.injEq] at hu
      obtain ⟨rfl, rfl⟩ := hu
      exact hrest p rfl
    · rw [Pool.set_thread_ne s c rest m₁ heq] at hu
      exact (h.keeps u d p hu).others (hf.others heq hwf)

theorem Guarded.step (h : Guarded G s) (hbody : ∀ t c, ev = .start t c → sys.may s c = true →
      Assures t (G t c) (sys.body t c) (s.mem.openTx t))
    (hstep : sys.step s ev = some s') : Guarded G s' := by
  cases System.steps_of_step hstep with
  | tick now hnow =>
      refine ⟨⟨h.wf.nodup, h.wf.absent⟩, h.opened, h.held, fun u d p hu => ?_⟩
      exact (h.keeps u d p hu).others ⟨⟨h.wf.nodup, h.wf.absent⟩, rfl, fun _ _ => rfl⟩
  | start t c hfresh hmay =>
      have hwf : (s.mem.openTx t).WF := ⟨h.wf.nodup, h.wf.absent⟩
      refine ⟨hwf, fun u hu => ?_, fun k u v hv => ?_, fun u d p hu => ?_⟩
      · by_cases heq : u = t
        · exact heq ▸ List.mem_cons_self
        · rw [Pool.set_thread_ne s c _ _ heq] at hu
          exact List.mem_cons_of_mem _ (h.opened u hu)
      · by_cases heq : u = t
        · subst heq
          simp
        · rw [Pool.set_thread_ne s c _ _ heq]
          exact h.held k u v hv
      · by_cases heq : u = t
        · subst heq
          rw [Pool.set_thread_self, Option.some.injEq, Thread.mk.injEq, Option.some.injEq] at hu
          obtain ⟨rfl, rfl⟩ := hu
          exact hbody u c rfl hmay
        · rw [Pool.set_thread_ne s c _ _ heq] at hu
          exact (h.keeps u d p hu).others ⟨hwf, rfl, fun _ _ => rfl⟩
  | run t c st next r m ht he =>
      have hassures := (h.keeps t c _ ht).run h.wf he
      have hwf := (exec_change he).wf h.wf
      refine h.advance ht ((exec_change he).frame h.wf) hwf fun p hp => ?_
      exact Option.some.inj hp ▸ hassures.2
  | skip t c st next r ht hr =>
      refine h.advance ht (.refl t s.mem) h.wf fun p hp => ?_
      exact Option.some.inj hp ▸ (h.keeps t c _ ht).skip hr
  | abort t c st next ht =>
      exact h.advance ht (.rollback t s.mem) h.wf.rollback fun p hp => nomatch hp

-- Every run of calls that keep their guarantees, whatever they find.
theorem Guarded.of_reaches {ok : Pool K V T C α → Event T C → Pool K V T C α → Prop}
    (hwf : m.WF) (hfree : ∀ k, (m.cell k).pending = none)
    (hbody : ∀ s t c m, sys.may s c = true → m.WF → (m.mine t = fun _ => none) →
      Assures t (G t c) (sys.body t c) m)
    (h : Reaches sys.step ok (Pool.init m) s) : Guarded G s := by
  refine h.invariant (.init hwf hfree) fun s ev s' _ hs hstep _ => ?_
  refine hs.step (fun t c hev hmay => ?_) hstep
  refine hbody s t c _ hmay ⟨hs.wf.nodup, hs.wf.absent⟩
    (funext fun k => mine_eq_none.mpr fun v hv => ?_)
  have hfresh : t ∉ s.mem.opened := by
    subst hev
    cases System.steps_of_step hstep with
    | start t c hfresh hmay => exact hfresh
  exact hfresh (hs.opened t (hs.held k t v hv))

-- The guarantee of a call holds of the statement it executes.
theorem Guarded.guarantee (h : Guarded G s) (hstep : sys.step s (.run t) = some s')
    {p : Prog K V T α} (ht : s.thread t = some ⟨c, some p⟩) : G t c s.mem s'.mem := by
  cases System.steps_of_step hstep with
  | run t d st next r m hd he =>
      obtain ⟨rfl, -⟩ := Thread.mk.inj (Option.some.inj (ht.symm.trans hd))
      exact ((h.keeps t c _ hd).run h.wf he).1

end Runs

end Txn
