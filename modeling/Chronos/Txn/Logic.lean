import Chronos.Txn.Pool
import Mathlib.Logic.Relation

namespace Txn

-- A rely-guarantee specification of a pool of transactions. `inv` holds in every state of a run
-- whose states all satisfy `assume`, whose calls are admitted where they start and whose
-- statements are permitted where they execute. `guar c t` is what every statement of call `c` run
-- as `t` does to the store, and `post c t` holds of the value it returns, from then on.
structure Spec (K : Type) (V : K → Type) (T : Type) (C : Type) (α : Type) where
  assume : Store K V T → Prop
  admits : C → Store K V T → Prop
  permits : ∀ {β : Type}, C → TxId → Stmt K V T β → Store K V T → Prop
  inv : Store K V T → Prop
  guar : C → TxId → Store K V T → Store K V T → Prop
  post : C → TxId → α → Store K V T → Prop

variable {K : Type} {V : K → Type} {T : Type} {C : Type} {α β : Type}

-- The guarantees of the calls keep the invariant.
def Spec.Sound (S : Spec K V T C α) : Prop :=
  ∀ c t m m', m.WF → m'.WF → S.inv m → S.assume m → t ∈ m.opened → Frame t m m' →
    S.guar c t m m' → S.assume m' → S.inv m'

section Safe

variable [LE T]

-- What happens outside of all statements: the clock moves on and calls are made.
structure Environment (m m' : Store K V T) : Prop where
  keys : m'.keys = m.keys
  cell : m'.cell = m.cell
  clock : m'.clock = m.clock ∨ m.clock ≤ m'.clock
  opened : ∀ t, t ∈ m.opened → t ∈ m'.opened

variable (S : Spec K V T C α)

def Interferes (t : TxId) (m m' : Store K V T) : Prop :=
  m'.WF ∧ S.inv m' ∧ S.assume m' ∧
    (Environment m m' ∨ ∃ c s, s ≠ t ∧ s ∈ m.opened ∧ Frame s m m' ∧ S.guar c s m m')

abbrev Rely (t : TxId) : Store K V T → Store K V T → Prop := Relation.ReflTransGen (Interferes S t)

def Stable (t : TxId) (P : Store K V T → Prop) : Prop :=
  ∀ m m', m.WF → S.inv m → Interferes S t m m' → P m → P m'

variable [DecidableEq K]

-- `Safe S c t p Q m`: started in `m`, with other calls interfering between any two statements,
-- each statement of `p` keeps the guarantee of `c`, and `Q` holds of the result from then on.
def Safe (c : C) (t : TxId) : Prog K V T β → (β → Store K V T → Prop) → Store K V T → Prop
  | .pure a, Q, m => ∀ m', Rely S t m m' → Q a m'
  | .op st next, Q, m => ∀ m', Rely S t m m' → m'.WF → S.inv m' → S.assume m' →
      (∀ r m'', exec t st m' = some (r, m'') → S.permits c t st m' →
        S.guar c t m' m'' ∧ (S.assume m'' → Safe c t (next r) Q m'')) ∧
      (∀ r, st.skipped = some r → Safe c t (next r) Q m')

end Safe

section Rules

variable [LE T] {S : Spec K V T C α}

theorem Stable.rely {t : TxId} {P : Store K V T → Prop} (h : Stable S t P) {m m' : Store K V T}
    (hwf : m.WF) (hinv : S.inv m) (hr : Rely S t m m') (hP : P m) :
    P m' := by
  have hall : m'.WF ∧ S.inv m' ∧ P m' := by
    induction hr with
    | refl => exact ⟨hwf, hinv, hP⟩
    | tail _ hi ih => exact ⟨hi.1, hi.2.1, h _ _ ih.1 ih.2.1 hi ih.2.2⟩
  exact hall.2.2

theorem Stable.and {t : TxId} {P Q : Store K V T → Prop} (hp : Stable S t P)
    (hq : Stable S t Q) : Stable S t fun m => P m ∧ Q m :=
  fun m m' hwf hinv hi h => ⟨hp m m' hwf hinv hi h.1, hq m m' hwf hinv hi h.2⟩

theorem Stable.all {ι : Sort*} {t : TxId} {P : ι → Store K V T → Prop}
    (h : ∀ i, Stable S t (P i)) : Stable S t fun m => ∀ i, P i m :=
  fun m m' hwf hinv hi hp i => h i m m' hwf hinv hi (hp i)

theorem Stable.imp {t : TxId} {p : Prop} {P : Store K V T → Prop} (h : Stable S t P) :
    Stable S t fun m => p → P m :=
  fun m m' hwf hinv hi hp hh => h m m' hwf hinv hi (hp hh)

theorem Stable.const {t : TxId} (p : Prop) : Stable S t fun _ => p :=
  fun _ _ _ _ _ h => h

variable [DecidableEq K] {c : C} {t : TxId}

theorem Safe.rely {p : Prog K V T β} {Q : β → Store K V T → Prop} {m m' : Store K V T}
    (h : Safe S c t p Q m) (hr : Rely S t m m') : Safe S c t p Q m' := by
  cases p with
  | pure a => exact fun m'' hr' => h m'' (hr.trans hr')
  | op st next => exact fun m'' hr' => h m'' (hr.trans hr')

theorem Safe.mono {p : Prog K V T β} {Q Q' : β → Store K V T → Prop} {m : Store K V T}
    (h : Safe S c t p Q m) (hQ : ∀ a m, Q a m → Q' a m) : Safe S c t p Q' m := by
  induction p generalizing m with
  | pure a => exact fun m' hr => hQ a m' (h m' hr)
  | op st next ih =>
      intro m' hr hwf hinv hassume
      obtain ⟨hrun, hskip⟩ := h m' hr hwf hinv hassume
      refine ⟨fun r m'' he hp => ?_, fun r hs => ih r (hskip r hs)⟩
      obtain ⟨hg, hnext⟩ := hrun r m'' he hp
      exact ⟨hg, fun ha => ih r (hnext ha)⟩

theorem Safe.bind {p : Prog K V T β} {γ : Type} {f : β → Prog K V T γ}
    {Q : γ → Store K V T → Prop} {m : Store K V T}
    (h : Safe S c t p (fun a m => Safe S c t (f a) Q m) m) : Safe S c t (p.bind f) Q m := by
  induction p generalizing m with
  | pure a => exact h m .refl
  | op st next ih =>
      intro m' hr hwf hinv hassume
      obtain ⟨hrun, hskip⟩ := h m' hr hwf hinv hassume
      refine ⟨fun r m'' he hp => ?_, fun r hs => ih r (hskip r hs)⟩
      obtain ⟨hg, hnext⟩ := hrun r m'' he hp
      exact ⟨hg, fun ha => ih r (hnext ha)⟩

-- A returned value: a stable assertion that holds now holds whenever it is looked at.
theorem Safe.pure {P : Store K V T → Prop} {a : β} {Q : β → Store K V T → Prop}
    {m : Store K V T} (hst : Stable S t P) (hwf : m.WF) (hinv : S.inv m) (hP : P m)
    (hQ : ∀ m, P m → Q a m) : Safe S c t (.pure a) Q m :=
  fun m' hr => hQ m' (hst.rely hwf hinv hr hP)

-- One statement under a stable assertion.
theorem Safe.op {P : Store K V T → Prop} {st : Stmt K V T β} {γ : Type}
    {next : β → Prog K V T γ} {Q : γ → Store K V T → Prop} {m : Store K V T}
    (hst : Stable S t P) (hwf : m.WF) (hinv : S.inv m) (hP : P m)
    (hrun : ∀ m r m', m.WF → S.inv m → S.assume m → P m → exec t st m = some (r, m') →
      S.permits c t st m → S.guar c t m m' ∧ (S.assume m' → Safe S c t (next r) Q m'))
    (hskip : ∀ m r, m.WF → S.inv m → S.assume m → P m → st.skipped = some r →
      Safe S c t (next r) Q m) :
    Safe S c t (.op st next) Q m := by
  intro m' hr hwf' hinv' hassume'
  have hP' := hst.rely hwf hinv hr hP
  exact ⟨fun r m'' he hp => hrun m' r m'' hwf' hinv' hassume' hP' he hp,
    fun r hs => hskip m' r hwf' hinv' hassume' hP' hs⟩

end Rules

section Soundness

variable [DecidableEq K] [LE T] [DecidableLE T]

structure Pool.Inv (S : Spec K V T C α) (s : Pool K V T C α) : Prop where
  wf : s.mem.WF
  inv : S.inv s.mem
  assume : S.assume s.mem
  threads : ∀ t, s.thread t ≠ none → t ∈ s.mem.opened
  held : ∀ k t v, (s.mem.cell k).pending = some (t, v) → t ∈ s.mem.opened
  safe : ∀ t c p, s.thread t = some ⟨c, some p⟩ → Safe S c t p (S.post c t) s.mem

-- A step of a run under the specification: its call is admitted or its statement permitted where
-- it executes, and it leads to a state that satisfies the assumption.
structure Spec.Permitted (S : Spec K V T C α) (s : Pool K V T C α) (e : Event T C)
    (s' : Pool K V T C α) : Prop where
  assume : S.assume s'.mem
  start : ∀ t c, e = .start t c → S.admits c s.mem
  run : ∀ t c {β : Type} (st : Stmt K V T β) next, e = .run t →
    s.thread t = some ⟨c, some (.op st next)⟩ → S.permits c t st s.mem

-- What has to be checked of a system, call by call.
structure Spec.Valid (S : Spec K V T C α) (sys : System K V T C α) : Prop where
  sound : S.Sound
  environment : ∀ m m', m.WF → S.inv m → S.assume m → Environment m m' → S.assume m' → S.inv m'
  abort : ∀ c t m, m.WF → S.inv m → S.guar c t m (m.rollback t)
  start : ∀ s t c, Pool.Inv S s → t ∉ s.mem.opened → sys.may s c = true → S.admits c s.mem →
    S.inv (s.mem.openTx t) → S.assume (s.mem.openTx t) →
    Safe S c t (sys.body t c) (S.post c t) (s.mem.openTx t)

variable {S : Spec K V T C α} {sys : System K V T C α}

omit [DecidableLE T] in
-- A step of `t` that keeps its guarantee is interference to everybody else.
private theorem Pool.Inv.thread_step (hv : S.Valid sys) {s : Pool K V T C α} (h : Pool.Inv S s)
    {t : TxId} {c : C} {rest : Option (Prog K V T α)} {m : Store K V T} (ht : t ∈ s.mem.opened)
    (hf : Frame t s.mem m) (hwf : m.WF) (hg : S.guar c t s.mem m) (ha : S.assume m)
    (hsafe : ∀ p, rest = some p → Safe S c t p (S.post c t) m) : Pool.Inv S (s.set t c rest m) := by
  have hinv : S.inv m := hv.sound c t s.mem m h.wf hwf h.inv h.assume ht hf hg ha
  refine ⟨hwf, hinv, ha, ?_, ?_, ?_⟩
  · intro t' ht'
    rw [Pool.set_mem, hf.opened]
    by_cases heq : t' = t
    · exact heq ▸ ht
    · rw [Pool.set_thread_ne s c rest m heq] at ht'
      exact h.threads t' ht'
  · intro k t' v hp
    rw [Pool.set_mem] at hp ⊢
    rw [hf.opened]
    by_cases heq : t' = t
    · exact heq ▸ ht
    · exact h.held k t' v (((hf.cells k).other heq v).mpr hp)
  · intro t' c' p ht'
    by_cases heq : t' = t
    · subst heq
      simp only [Pool.set_thread_self, Option.some.injEq, Thread.mk.injEq] at ht'
      obtain ⟨rfl, hp⟩ := ht'
      exact hsafe p hp
    · rw [Pool.set_thread_ne s c rest m heq] at ht'
      exact (h.safe t' c' p ht').rely
        (.single ⟨hwf, hinv, ha, .inr ⟨c, t, Ne.symm heq, ht, hf, hg⟩⟩)

omit [DecidableLE T] in
private theorem Pool.Inv.environment_step (hv : S.Valid sys) {s : Pool K V T C α}
    (h : Pool.Inv S s) {m : Store K V T} (henv : Environment s.mem m) (ha : S.assume m)
    {thread : TxId → Option (Thread K V T C α)} (hopen : ∀ t, thread t ≠ none → t ∈ m.opened)
    (hsafe : ∀ t c p, thread t = some ⟨c, some p⟩ →
      s.thread t = some ⟨c, some p⟩ ∨ (S.inv m → Safe S c t p (S.post c t) m)) :
    Pool.Inv S ⟨m, thread⟩ := by
  have hinv : S.inv m := hv.environment s.mem m h.wf h.inv h.assume henv ha
  have hwf : m.WF := ⟨by rw [henv.keys]; exact h.wf.nodup, fun k hk => by
    rw [henv.cell]
    exact h.wf.absent k (henv.keys ▸ hk)⟩
  refine ⟨hwf, hinv, ha, hopen, ?_, ?_⟩
  · intro k t v hp
    simp only [henv.cell] at hp
    exact henv.opened t (h.held k t v hp)
  · intro t c p ht
    rcases hsafe t c p ht with hold | hnew
    · exact (h.safe t c p hold).rely (.single ⟨hwf, hinv, ha, .inl henv⟩)
    · exact hnew hinv

theorem Pool.Inv.step (hv : S.Valid sys) {s s' : Pool K V T C α} {e : Event T C}
    (h : Pool.Inv S s) (he : sys.step s e = some s') (hok : S.Permitted s e s') :
    Pool.Inv S s' := by
  have ha := hok.assume
  cases System.steps_of_step he with
  | tick now hnow =>
      have henv : Environment s.mem { s.mem with clock := now } :=
        ⟨rfl, rfl, .inr hnow, fun _ ht => ht⟩
      exact h.environment_step hv henv ha h.threads fun t c p ht => .inl ht
  | start t c hfresh hmay =>
      have henv : Environment s.mem (s.mem.openTx t) :=
        ⟨rfl, rfl, .inl rfl, fun t' ht' => List.mem_cons_of_mem t ht'⟩
      refine h.environment_step hv henv ha ?_ ?_
      · intro t' ht'
        by_cases heq : t' = t
        · exact heq ▸ List.mem_cons_self
        · rw [Function.update_of_ne heq] at ht'
          exact henv.opened t' (h.threads t' ht')
      · intro t' c' p ht'
        by_cases heq : t' = t
        · subst heq
          simp only [Function.update_self, Option.some.injEq, Thread.mk.injEq] at ht'
          obtain ⟨rfl, rfl⟩ := ht'
          exact .inr fun hinv => hv.start s t' c h hfresh hmay (hok.start t' c rfl) hinv ha
        · rw [Function.update_of_ne heq] at ht'
          exact .inl ht'
  | run t c st next r m ht hexec =>
      have hsafe := (h.safe t c _ ht) s.mem .refl h.wf h.inv h.assume
      obtain ⟨hg, hnext⟩ := hsafe.1 r m hexec (hok.run t c st next rfl ht)
      have hc := exec_change hexec
      refine h.thread_step hv (h.threads t (by simp [ht])) (hc.frame h.wf) (hc.wf h.wf) hg ha ?_
      intro p hp
      exact (Option.some.inj hp) ▸ hnext ha
  | skip t c st next r ht hr =>
      have hsafe := (h.safe t c _ ht) s.mem .refl h.wf h.inv h.assume
      refine ⟨h.wf, h.inv, h.assume, ?_, h.held, ?_⟩
      · intro t' ht'
        by_cases heq : t' = t
        · exact h.threads t' (by simp [heq, ht])
        · rw [Pool.set_thread_ne s c _ _ heq] at ht'
          exact h.threads t' ht'
      · intro t' c' p ht'
        by_cases heq : t' = t
        · subst heq
          simp only [Pool.set_thread_self, Option.some.injEq, Thread.mk.injEq] at ht'
          obtain ⟨rfl, rfl⟩ := ht'
          exact hsafe.2 r hr
        · rw [Pool.set_thread_ne s c _ _ heq] at ht'
          exact h.safe t' c' p ht'
  | abort t c st next ht =>
      refine h.thread_step hv (h.threads t (by simp [ht])) (.rollback t s.mem) h.wf.rollback
        (hv.abort c t s.mem h.wf h.inv) ha ?_
      simp

-- What a step does to the store: nothing but the environment's doing, the rollback of a call that
-- is cut off, or one statement of a call in progress, within the guarantee of that call.
theorem Pool.Inv.guarantee {s s' : Pool K V T C α} {e : Event T C}
    (h : Pool.Inv S s) (he : sys.step s e = some s') (hok : S.Permitted s e s') :
    Environment s.mem s'.mem ∨ (∃ t, e = .abort t ∧ s'.mem = s.mem.rollback t) ∨
      ∃ t c p, e = .run t ∧ s.thread t = some ⟨c, some p⟩ ∧ Frame t s.mem s'.mem ∧
        S.guar c t s.mem s'.mem := by
  cases System.steps_of_step he with
  | tick now hnow => exact .inl ⟨rfl, rfl, .inr hnow, fun _ ht => ht⟩
  | start t c hfresh hmay =>
      exact .inl ⟨rfl, rfl, .inl rfl, fun t' ht' => List.mem_cons_of_mem t ht'⟩
  | run t c st next r m ht hexec =>
      have hsafe := (h.safe t c _ ht) s.mem .refl h.wf h.inv h.assume
      exact .inr (.inr ⟨t, c, _, rfl, ht, (exec_change hexec).frame h.wf,
        (hsafe.1 r m hexec (hok.run t c st next rfl ht)).1⟩)
  | skip t c st next r ht hr => exact .inl ⟨rfl, rfl, .inl rfl, fun _ ht => ht⟩
  | abort t c st next ht => exact .inr (.inl ⟨t, rfl, rfl⟩)

theorem Pool.Inv.reaches (hv : S.Valid sys) {s s' : Pool K V T C α} (h : Pool.Inv S s)
    (hr : Reaches sys.step S.Permitted s s') : Pool.Inv S s' :=
  hr.invariant h fun _ _ _ _ hi he hok => hi.step hv he hok

end Soundness

end Txn
