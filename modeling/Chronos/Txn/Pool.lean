import Chronos.Txn.Program

namespace Txn

-- Runs of a step function. `ok` is what is required of every step of the run: the state before
-- it, its event and the state after.
inductive Reaches {S : Type*} {E : Type*} (step : S → E → Option S) (ok : S → E → S → Prop)
    (init : S) : S → Prop
  | refl : Reaches step ok init init
  | tail {s s' : S} {e : E} (hs : Reaches step ok init s) (he : step s e = some s')
      (hok : ok s e s') : Reaches step ok init s'

-- The run along a list of events, as long as each step passes a check.
def runAll {S : Type*} {E : Type*} (step : S → E → Option S) (check : S → E → S → Bool) :
    S → List E → Option S
  | s, [] => some s
  | s, e :: es =>
      (step s e).bind fun s' => if check s e s' then runAll step check s' es else none

namespace Reaches

variable {S : Type*} {E : Type*} {step : S → E → Option S} {ok : S → E → S → Prop} {init : S}

theorem mono {ok' : S → E → S → Prop} {s : S} (h : Reaches step ok init s)
    (hok : ∀ s e s', ok s e s' → ok' s e s') : Reaches step ok' init s := by
  induction h with
  | refl => exact .refl
  | tail _ he hk ih => exact .tail ih he (hok _ _ _ hk)

-- The steps of a run meet another condition.
theorem imp {ok' : S → E → S → Prop} {s : S} (h : Reaches step ok init s)
    (hok : ∀ s e s', Reaches step ok init s → step s e = some s' → ok s e s' → ok' s e s') :
    Reaches step ok' init s := by
  induction h with
  | refl => exact .refl
  | tail hs he hk ih => exact .tail ih he (hok _ _ _ hs he hk)

theorem trans {mid s : S} (h : Reaches step ok init mid) (h' : Reaches step ok mid s) :
    Reaches step ok init s := by
  induction h' with
  | refl => exact h
  | tail _ he hk ih => exact .tail ih he hk

-- The induction behind every safety result: what holds at the start and survives each step of
-- the run holds wherever the run gets to.
theorem invariant {P : S → Prop} {s : S} (h : Reaches step ok init s) (hinit : P init)
    (hstep : ∀ s e s', Reaches step ok init s → P s → step s e = some s' → ok s e s' → P s') :
    P s := by
  induction h with
  | refl => exact hinit
  | tail hs he hk ih => exact hstep _ _ _ hs ih he hk

-- The runs through states with `P` are the runs of `ok` steps, if a step from such a state
-- keeps `P` exactly when it is `ok`.
theorem iff_of_step {P : S → Prop} {s : S} (hinit : P init)
    (hstep : ∀ s e s', Reaches step (fun _ _ _ => True) init s → P s → step s e = some s' →
      (P s' ↔ ok s e s')) :
    Reaches step (fun _ _ s' => P s') init s ↔ Reaches step ok init s := by
  constructor
  · intro h
    refine h.imp fun s e s' hs he hP => ?_
    have hbefore : P s := by
      cases hs with
      | refl => exact hinit
      | tail _ _ hP => exact hP
    exact (hstep s e s' (hs.mono fun _ _ _ _ => trivial) hbefore he).mp hP
  · intro h
    have hall : ∀ s, Reaches step ok init s → P s := by
      intro s hs
      refine hs.invariant hinit fun s e s' hs hP he hok => ?_
      exact (hstep s e s' (hs.mono fun _ _ _ _ => trivial) hP he).mpr hok
    exact h.imp fun s e s' hs he hok => hall s' (.tail hs he hok)

theorem of_runAll {check : S → E → S → Bool} {es : List E} {s : S}
    (h : runAll step check init es = some s) :
    Reaches step (fun s e s' => check s e s' = true) init s := by
  induction es generalizing init with
  | nil =>
      simp only [runAll, Option.some.injEq] at h
      exact h ▸ .refl
  | cons e es ih =>
      simp only [runAll, Option.bind_eq_some_iff] at h
      obtain ⟨mid, he, h⟩ := h
      split at h
      · rename_i hcheck
        exact trans (.tail .refl he hcheck) (ih h)
      · cases h

-- A run that does not get to the end of its events counts as one that has not begun.
theorem getD_runAll (check : S → E → S → Bool) (es : List E) :
    Reaches step (fun s e s' => check s e s' = true) init
      ((runAll step check init es).getD init) := by
  cases h : runAll step check init es with
  | none => exact .refl
  | some s => exact of_runAll h

end Reaches

section Pool

variable (K : Type) (V : K → Type) (T : Type) (C : Type) (α : Type)

-- A call being executed: its arguments and what is left to run of its program, or `none` once
-- the call has been cut off (a lost connection, a killed task).
structure Thread where
  call : C
  rest : Option (Prog K V T α)

structure Pool where
  mem : Store K V T
  thread : TxId → Option (Thread K V T C α)

inductive Event
  | tick (now : T)
  | start (t : TxId) (c : C)
  | run (t : TxId)
  | skip (t : TxId)
  | abort (t : TxId)

-- Which calls can be made in a state, and the program each call runs.
structure System where
  may : Pool K V T C α → C → Bool
  body : TxId → C → Prog K V T α

end Pool

variable {K : Type} {V : K → Type} {T : Type} {C : Type} {α : Type}
def Pool.init (m : Store K V T) : Pool K V T C α := ⟨m, fun _ => none⟩

def Pool.set (s : Pool K V T C α) (t : TxId) (c : C) (rest : Option (Prog K V T α))
    (m : Store K V T) : Pool K V T C α :=
  ⟨m, Function.update s.thread t (some ⟨c, rest⟩)⟩

@[simp] theorem Pool.set_mem (s : Pool K V T C α) (t : TxId) (c : C)
    (rest : Option (Prog K V T α)) (m : Store K V T) : (s.set t c rest m).mem = m := rfl

@[simp] theorem Pool.set_thread_self (s : Pool K V T C α) (t : TxId) (c : C)
    (rest : Option (Prog K V T α)) (m : Store K V T) :
    (s.set t c rest m).thread t = some ⟨c, rest⟩ := by
  simp [Pool.set]

theorem Pool.set_thread_ne (s : Pool K V T C α) {t t' : TxId} (c : C)
    (rest : Option (Prog K V T α)) (m : Store K V T) (h : t' ≠ t) :
    (s.set t c rest m).thread t' = s.thread t' := by
  simp [Pool.set, h]

variable [DecidableEq K] [LE T] [DecidableLE T]

-- One event: the clock moves on, a call is made, or a call in progress executes its next
-- statement, passes over a row as locked, or is cut off. Statements of different calls
-- interleave in every order.
def System.step (sys : System K V T C α) (s : Pool K V T C α) :
    Event T C → Option (Pool K V T C α)
  | .tick now => if s.mem.clock ≤ now then some ⟨{ s.mem with clock := now }, s.thread⟩ else none
  | .start t c =>
      if t ∉ s.mem.opened ∧ sys.may s c then
        some (s.set t c (some (sys.body t c)) (s.mem.openTx t))
      else none
  | .run t =>
      match s.thread t with
      | some ⟨c, some (.op st next)⟩ =>
          match exec t st s.mem with
          | some (r, m) => some (s.set t c (some (next r)) m)
          | none => none
      | _ => none
  | .skip t =>
      match s.thread t with
      | some ⟨c, some (.op st next)⟩ =>
          match st.skipped with
          | some r => some (s.set t c (some (next r)) s.mem)
          | none => none
      | _ => none
  | .abort t =>
      match s.thread t with
      | some ⟨c, some (.op _ _)⟩ => some (s.set t c none (s.mem.rollback t))
      | _ => none

-- Inversion of `System.step`: what each event requires and where it leads.
inductive System.Steps (sys : System K V T C α) (s : Pool K V T C α) :
    Event T C → Pool K V T C α → Prop
  | tick (now : T) (hnow : s.mem.clock ≤ now) :
      Steps sys s (.tick now) ⟨{ s.mem with clock := now }, s.thread⟩
  | start (t : TxId) (c : C) (hfresh : t ∉ s.mem.opened) (hmay : sys.may s c = true) :
      Steps sys s (.start t c) (s.set t c (some (sys.body t c)) (s.mem.openTx t))
  | run (t : TxId) (c : C) {β : Type} (st : Stmt K V T β) (next : β → Prog K V T α) (r : β)
      (m : Store K V T) (ht : s.thread t = some ⟨c, some (.op st next)⟩)
      (he : exec t st s.mem = some (r, m)) : Steps sys s (.run t) (s.set t c (some (next r)) m)
  | skip (t : TxId) (c : C) {β : Type} (st : Stmt K V T β) (next : β → Prog K V T α) (r : β)
      (ht : s.thread t = some ⟨c, some (.op st next)⟩) (hr : st.skipped = some r) :
      Steps sys s (.skip t) (s.set t c (some (next r)) s.mem)
  | abort (t : TxId) (c : C) {β : Type} (st : Stmt K V T β) (next : β → Prog K V T α)
      (ht : s.thread t = some ⟨c, some (.op st next)⟩) :
      Steps sys s (.abort t) (s.set t c none (s.mem.rollback t))

theorem System.steps_of_step {sys : System K V T C α} {s s' : Pool K V T C α} {e : Event T C}
    (h : sys.step s e = some s') : sys.Steps s e s' := by
  cases e with
  | tick now =>
      simp only [System.step] at h
      split at h
      · rename_i hnow
        cases h
        exact .tick now hnow
      · simp at h
  | start t c =>
      simp only [System.step] at h
      split at h
      · rename_i hs
        cases h
        exact .start t c hs.1 hs.2
      · simp at h
  | run t =>
      simp only [System.step] at h
      split at h
      · rename_i c β st next ht
        split at h
        · rename_i r m he
          cases h
          exact .run t c st next r m ht he
        · simp at h
      · simp at h
  | skip t =>
      simp only [System.step] at h
      split at h
      · rename_i c β st next ht
        split at h
        · rename_i r hr
          cases h
          exact .skip t c st next r ht hr
        · simp at h
      · simp at h
  | abort t =>
      simp only [System.step] at h
      split at h
      · rename_i c β st next ht
        cases h
        exact .abort t c st next ht
      · simp at h

omit [DecidableLE T] in
-- Every call has opened its transaction.
theorem System.Steps.opened {sys : System K V T C α} {s s' : Pool K V T C α} {e : Event T C}
    (h : sys.Steps s e s') (hopen : ∀ t, s.thread t ≠ none → t ∈ s.mem.opened) :
    ∀ t, s'.thread t ≠ none → t ∈ s'.mem.opened := by
  have hset : ∀ (t' : TxId) (c : C) (rest : Option (Prog K V T α)) (m : Store K V T),
      m.opened = s.mem.opened → s.thread t' ≠ none →
        ∀ t, (s.set t' c rest m).thread t ≠ none → t ∈ m.opened := by
    intro t' c rest m hm ht' t ht
    rw [hm]
    by_cases heq : t = t'
    · exact heq ▸ hopen t' ht'
    · rw [Pool.set_thread_ne s c rest m heq] at ht
      exact hopen t ht
  cases h with
  | tick now hnow => exact hopen
  | start t' c hfresh hmay =>
      intro t ht
      by_cases heq : t = t'
      · exact heq ▸ List.mem_cons_self
      · rw [Pool.set_thread_ne s c _ _ heq] at ht
        exact List.mem_cons_of_mem t' (hopen t ht)
  | run t' c st next r m ht' he => exact hset t' c _ m (exec_change he).opened (by simp [ht'])
  | skip t' c st next r ht' hr => exact hset t' c _ _ rfl (by simp [ht'])
  | abort t' c st next ht' => exact hset t' c _ _ rfl (by simp [ht'])

omit [DecidableLE T] in
-- A call that has been made stays the call of its transaction.
theorem System.Steps.call {sys : System K V T C α} {s s' : Pool K V T C α} {e : Event T C}
    (h : sys.Steps s e s') (hopen : ∀ t, s.thread t ≠ none → t ∈ s.mem.opened) {t : TxId} {c : C}
    {rest : Option (Prog K V T α)} (ht : s.thread t = some ⟨c, rest⟩) :
    ∃ rest', s'.thread t = some ⟨c, rest'⟩ := by
  have hset : ∀ (t' : TxId) (c' : C) (rest₁ rest₂ : Option (Prog K V T α)) (m : Store K V T),
      s.thread t' = some ⟨c', rest₁⟩ → ∃ rest', (s.set t' c' rest₂ m).thread t = some ⟨c, rest'⟩ := by
    intro t' c' rest₁ rest₂ m ht'
    by_cases heq : t = t'
    · subst heq
      obtain ⟨rfl, -⟩ := Thread.mk.inj (Option.some.inj (ht.symm.trans ht'))
      exact ⟨rest₂, Pool.set_thread_self s t c rest₂ m⟩
    · exact ⟨rest, by rw [Pool.set_thread_ne s c' rest₂ m heq, ht]⟩
  cases h with
  | tick now hnow => exact ⟨rest, ht⟩
  | start t' c' hfresh hmay =>
      have hne : t ≠ t' := fun heq => hfresh (heq ▸ hopen t (by simp [ht]))
      exact ⟨rest, by rw [Pool.set_thread_ne s c' _ _ hne, ht]⟩
  | run t' c' st next r m ht' he => exact hset t' c' _ _ _ ht'
  | skip t' c' st next r ht' hr => exact hset t' c' _ _ _ ht'
  | abort t' c' st next ht' => exact hset t' c' _ _ _ ht'

-- What a step does to one call: nothing, or it makes the call, or the call moves on.
inductive ThreadStep (sys : System K V T C α) (s s' : Pool K V T C α) (e : Event T C) (t : TxId) : Prop
  | same (h : s'.thread t = s.thread t)
  | started (c : C) (he : e = .start t c) (hfresh : t ∉ s.mem.opened) (hmay : sys.may s c = true)
      (h : s'.thread t = some ⟨c, some (sys.body t c)⟩)
  | advanced (c : C) {β : Type} (st : Stmt K V T β) (next : β → Prog K V T α) (r : β)
      (h : s.thread t = some ⟨c, some (.op st next)⟩) (h' : s'.thread t = some ⟨c, some (next r)⟩)
  | cutOff (c : C) {β : Type} (st : Stmt K V T β) (next : β → Prog K V T α) (he : e = .abort t)
      (h : s.thread t = some ⟨c, some (.op st next)⟩) (h' : s'.thread t = some ⟨c, none⟩)

omit [DecidableLE T] in
theorem System.Steps.thread {sys : System K V T C α} {s s' : Pool K V T C α} {e : Event T C}
    (h : sys.Steps s e s') (t : TxId) : ThreadStep sys s s' e t := by
  have hne : ∀ (t' : TxId) (c : C) (rest : Option (Prog K V T α)) (m : Store K V T), t ≠ t' →
      ThreadStep sys s (s.set t' c rest m) e t := fun t' c rest m hne =>
    .same (Pool.set_thread_ne s c rest m hne)
  cases h with
  | tick now hnow => exact .same rfl
  | start t' c hfresh hmay =>
      by_cases heq : t = t'
      · subst heq
        exact .started c rfl hfresh hmay (Pool.set_thread_self s t c _ _)
      · exact hne t' c _ _ heq
  | run t' c st next r m ht he =>
      by_cases heq : t = t'
      · subst heq
        exact .advanced c st next r ht (Pool.set_thread_self s t c _ _)
      · exact hne t' c _ _ heq
  | skip t' c st next r ht hr =>
      by_cases heq : t = t'
      · subst heq
        exact .advanced c st next r ht (Pool.set_thread_self s t c _ _)
      · exact hne t' c _ _ heq
  | abort t' c st next ht =>
      by_cases heq : t = t'
      · subst heq
        exact .cutOff c st next rfl ht (Pool.set_thread_self s t c _ _)
      · exact hne t' c _ _ heq

omit [DecidableEq K] [LE T] [DecidableLE T] in
-- What a call can return by the shape of its program it can return in every state.
theorem ThreadStep.yields {sys : System K V T C α} {s s' : Pool K V T C α} {e : Event T C}
    {t : TxId} {Y : C → α → Prop} (h : ThreadStep sys s s' e t)
    (hbody : ∀ t c, (sys.body t c).Yields (Y c))
    (hold : ∀ c p, s.thread t = some ⟨c, some p⟩ → p.Yields (Y c)) {c : C} {p : Prog K V T α}
    (ht : s'.thread t = some ⟨c, some p⟩) : p.Yields (Y c) := by
  cases h with
  | same hsame => exact hold c p (hsame ▸ ht)
  | started d he hfresh hmay h' =>
      obtain ⟨rfl, hp⟩ := Thread.mk.inj (Option.some.inj (h'.symm.trans ht))
      exact Option.some.inj hp ▸ hbody t d
  | advanced d st next r hbefore h' =>
      obtain ⟨rfl, hp⟩ := Thread.mk.inj (Option.some.inj (h'.symm.trans ht))
      exact Option.some.inj hp ▸ hold d _ hbefore r
  | cutOff d st next he hbefore h' =>
      rw [h'] at ht
      cases ht

def System.Reachable (sys : System K V T C α) (m : Store K V T) : Pool K V T C α → Prop :=
  Reaches sys.step (fun _ _ _ => True) (Pool.init m)

end Txn
