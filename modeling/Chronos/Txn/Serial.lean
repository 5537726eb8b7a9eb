import Chronos.Txn.Alone
import Mathlib.Data.Fintype.EquivFin

namespace Txn

variable {K : Type} {V : K → Type} {T : Type} {α β γ : Type} [DecidableEq K]
variable {t : TxId} {m m' : Store K V T} {v w : View K V} {now : T} {k : K}

namespace View

-- Rows replaced one after the other.
def putAll (v : View K V) (rows : List (Sigma V)) : View K V :=
  rows.foldl (fun v r => v.put r.1 r.2) v

variable {rows : List (Sigma V)}

theorem putAll_cons (v : View K V) (r : Sigma V) (rows : List (Sigma V)) :
    v.putAll (r :: rows) = (v.put r.1 r.2).putAll rows := rfl

@[simp] theorem putAll_keys : (v.putAll rows).keys = v.keys := by
  induction rows generalizing v with
  | nil => rfl
  | cons r rows ih => exact ih

theorem putAll_row_notMem (hk : k ∉ rows.keys) : (v.putAll rows).row k = v.row k := by
  induction rows generalizing v with
  | nil => rfl
  | cons r rows ih =>
      rw [List.keys_cons, List.mem_cons, not_or] at hk
      rw [putAll_cons, ih hk.2, put_row_ne _ _ hk.1]

theorem putAll_row_mem (hnodup : rows.keys.Nodup) {row : V k} (hrow : ⟨k, row⟩ ∈ rows) :
    (v.putAll rows).row k = some row := by
  induction rows generalizing v with
  | nil => cases hrow
  | cons r rows ih =>
      rw [List.keys_cons, List.nodup_cons] at hnodup
      rw [putAll_cons]
      rcases List.mem_cons.mp hrow with rfl | hrow
      · rw [putAll_row_notMem hnodup.1, put_row_self]
      · exact ih hnodup.2 hrow

theorem put_put (v : View K V) (row row' : V k) : (v.put k row).put k row' = v.put k row' := by
  simp [put]

end View

section Drafts

variable {v₀ : View K V}

omit [DecidableEq K] in
-- A row that differs from the committed one is held.
theorem Drafts.held (h : Drafts t v₀ v now m) {row : V k} (hrow : v.row k = some row)
    (hne : v₀.row k ≠ some row) : (m.cell k).pending = some (t, row) := by
  have hseen : (m.cell k).seen t = some row := by
    rw [← hrow, ← h.sees.view]
    rfl
  rcases Cell.seen_cases hseen with hp | hc
  · exact hp
  · exact absurd ((h.committed k).symm.trans hc) hne

theorem Drafts.own (h : Drafts t v₀ v now m) {row : V k} (hrow : v.row k = some row)
    (row' : V k) : Drafts t v₀ (v.put k row') now (m.own t k row') where
  sees := h.sees.own row' hrow
  committed k' := (Store.own_committed t k row' m k').trans (h.committed k')

namespace Runs

theorem lift {st : Stmt K V T β} {Q : β → Store K V T → Prop} (hst : st.commits = false)
    (h : Runs t (Sees t v now) (Txn.stmt st) fun r m => Q r m) :
    Runs t (Drafts t v₀ v now) (Txn.stmt st) fun r m =>
      Q r m ∧ ∀ k, (m.cell k).committed = v₀.row k :=
  h.drafts v₀ (.stmt hst)

theorem drafts_update {row : V k} {cond : V k → Bool} (hrow : v.row k = some row)
    (hcond : cond row = true) (set : V k → V k) :
    Runs t (Drafts t v₀ v now) (Txn.stmt (.update k cond set)) fun r m =>
      r = some (set row) ∧ Drafts t v₀ (v.put k (set row)) now m :=
  (lift rfl (.update hrow hcond set)).post fun _ _ h => ⟨h.1.1, h.1.2, h.2⟩

-- A row that has been written before is written again.
theorem drafts_write {row : V k} (hrow : v.row k = some row) (hne : v₀.row k ≠ some row)
    (set : V k → V k) : Runs t (Drafts t v₀ v now) (Txn.stmt (.write k set)) fun r m =>
      r = some (set row) ∧ Drafts t v₀ (v.put k (set row)) now m := by
  refine .stmt fun m h => ⟨some (set row), m.own t k (set row), ?_, rfl, h.own hrow _⟩
  simp only [exec, h.held hrow hne, if_true]

theorem drafts_commit : Runs t (Drafts t v₀ v now) (Txn.stmt .commit) fun _ m =>
    Settled v now m :=
  commit.pre fun _ h => h.sees

-- A transaction that has written nothing and is rolled back.
theorem drafts_begin : Runs t (Settled v now) (Txn.stmt .begin) fun r m =>
    r = now ∧ Drafts t v v now m :=
  begin_settled.post fun _ _ h => ⟨h.1, h.2.drafts t⟩

end Runs

end Drafts

section Closing

-- Whether a program holds rows after a statement.
def Stmt.leaves (held : Prop) : {β : Type} → Stmt K V T β → Prop
  | _, .begin => held
  | _, .select _ => held
  | _, .commit => False
  | _, .rollback => False
  | _, _ => True

-- The program gives up its rows before it returns, on every path.
def Prog.Closes : Prop → Prog K V T α → Prop
  | held, .pure _ => ¬ held
  | held, .op st next => ∀ r, (next r).Closes (st.leaves held)

namespace Prog.Closes

variable {held held' : Prop} {p : Prog K V T α}

omit [DecidableEq K] in
theorem mono (h : p.Closes held) (himp : held' → held) : p.Closes held' := by
  induction p generalizing held held' with
  | pure a => exact fun hheld => h (himp hheld)
  | op st next ih =>
      intro r
      refine ih r (h r) ?_
      cases st with
      | begin => exact himp
      | select query => exact himp
      | commit => exact id
      | rollback => exact id
      | lock k cond => exact id
      | update k cond set => exact id
      | recheck k cond set => exact id
      | write k set => exact id
      | insert k row clash => exact id

omit [DecidableEq K] in
-- What comes last gives up whatever is held.
theorem bind {f : α → Prog K V T β} (p : Prog K V T α) (hf : ∀ a, (f a).Closes True) :
    (p >>= f).Closes held := by
  induction p generalizing held with
  | pure a => exact (hf a).mono fun _ => trivial
  | op st next ih => exact fun r => ih r

omit [DecidableEq K] in
-- Two programs that each give up what they hold.
theorem seq {f : α → Prog K V T β} (hp : p.Closes held) (hf : ∀ a, (f a).Closes False) :
    (p >>= f).Closes held := by
  induction p generalizing held with
  | pure a => exact (hf a).mono hp
  | op st next ih => exact fun r => ih r (hp r)

omit [DecidableEq K] in
theorem rollback {f : Unit → Prog K V T β} (hf : (f ()).Closes False) :
    (Txn.stmt .rollback >>= f : Prog K V T β).Closes held := fun _ => hf

omit [DecidableEq K] in
theorem begin {f : T → Prog K V T β} (hf : ∀ now, (f now).Closes held) :
    (Txn.stmt .begin >>= f : Prog K V T β).Closes held := hf

omit [DecidableEq K] in
theorem pure (a : α) : (Pure.pure a : Prog K V T α).Closes False := id

end Prog.Closes

variable {C : Type} [LE T] [DecidableLE T] {sys : System K V T C α}
  {s s' : Pool K V T C α} {ev : Event T C}

-- Rows are held by calls in progress only.
structure Tidy (s : Pool K V T C α) : Prop where
  opened : ∀ t, s.thread t ≠ none → t ∈ s.mem.opened
  program : ∀ t c p, s.thread t = some ⟨c, some p⟩ →
    p.Closes (∃ k v, (s.mem.cell k).pending = some (t, v))
  ended : ∀ t, (∀ c p, s.thread t ≠ some ⟨c, some p⟩) →
    ∀ k v, (s.mem.cell k).pending ≠ some (t, v)

omit [DecidableEq K] [LE T] [DecidableLE T] in
theorem Tidy.init (hfree : ∀ k, (m.cell k).pending = none) :
    Tidy (Pool.init m : Pool K V T C α) where
  opened t ht := absurd rfl ht
  program t c p ht := by simp [Pool.init] at ht
  ended t _ k v := by simp [Pool.init, hfree k]

omit [DecidableEq K] [LE T] [DecidableLE T] in
-- A call moves on with `rest` left to run.
theorem Tidy.advance (h : Tidy s) {c : C} {rest₀ rest : Option (Prog K V T α)}
    (ht : s.thread t = some ⟨c, rest₀⟩) (hf : Frame t s.mem m)
    (hrest : ∀ p, rest = some p → p.Closes (∃ k v, (m.cell k).pending = some (t, v)))
    (hover : rest = none → ∀ k v, (m.cell k).pending ≠ some (t, v)) :
    Tidy (s.set t c rest m) where
  opened u hu := by
    rw [Pool.set_mem, hf.opened]
    by_cases heq : u = t
    · exact h.opened u (by simp [heq, ht])
    · exact h.opened u (by rwa [Pool.set_thread_ne s c rest m heq] at hu)
  program u d p hu := by
    by_cases heq : u = t
    · subst heq
      rw [Pool.set_thread_self, Option.some.injEq, Thread.mk.injEq] at hu
      exact hrest p hu.2
    · rw [Pool.set_thread_ne s c rest m heq] at hu
      refine (h.program u d p hu).mono ?_
      rintro ⟨k, v, hv⟩
      exact ⟨k, v, ((hf.cells k).other heq v).mpr hv⟩
  ended u hu k v hv := by
    by_cases heq : u = t
    · subst heq
      cases hr : rest with
      | none => exact hover hr k v hv
      | some p => exact hu c p (by rw [Pool.set_thread_self, hr])
    · refine h.ended u (fun d p hd => hu d p ?_) k v (((hf.cells k).other heq v).mpr hv)
      rw [Pool.set_thread_ne s c rest m heq, hd]

omit [LE T] [DecidableLE T] in
-- What a statement leaves held.
theorem exec_leaves {st : Stmt K V T β} {r : β} (he : exec t st m = some (r, m'))
    (hheld : ∃ k v, (m'.cell k).pending = some (t, v)) :
    st.leaves (∃ k v, (m.cell k).pending = some (t, v)) := by
  cases st with
  | begin =>
      simp only [exec, Option.some.injEq, Prod.mk.injEq] at he
      exact he.2 ▸ hheld
  | select query =>
      simp only [exec, Option.some.injEq, Prod.mk.injEq] at he
      exact he.2 ▸ hheld
  | commit =>
      simp only [exec, Option.some.injEq, Prod.mk.injEq] at he
      obtain ⟨k, v, hv⟩ := hheld
      exact m.commit_not_held t k v (he.2 ▸ hv)
  | rollback =>
      simp only [exec, Option.some.injEq, Prod.mk.injEq] at he
      obtain ⟨k, v, hv⟩ := hheld
      exact m.rollback_not_held t k v (he.2 ▸ hv)
  | lock k cond => trivial
  | update k cond set => trivial
  | recheck k cond set => trivial
  | write k set => trivial
  | insert k row clash => trivial

theorem Tidy.step (hwf : s.mem.WF) (h : Tidy s)
    (hbody : ∀ t c, sys.may s c = true → (sys.body t c).Closes False)
    (hstep : sys.step s ev = some s') : Tidy s' := by
  cases System.steps_of_step hstep with
  | tick now hnow => exact ⟨h.opened, h.program, h.ended⟩
  | start u d hfresh hmay =>
      have hnone : ∀ c p, s.thread u ≠ some ⟨c, p⟩ := fun c p hu =>
        hfresh (h.opened u (by simp [hu]))
      refine ⟨fun x hx => ?_, fun x c p hx => ?_, fun x hx k v hv => ?_⟩
      · by_cases heq : x = u
        · exact heq ▸ List.mem_cons_self
        · rw [Pool.set_thread_ne s d _ _ heq] at hx
          exact List.mem_cons_of_mem _ (h.opened x hx)
      · by_cases heq : x = u
        · subst heq
          rw [Pool.set_thread_self, Option.some.injEq, Thread.mk.injEq, Option.some.injEq] at hx
          refine hx.2 ▸ (hbody x d hmay).mono ?_
          rintro ⟨k, v, hv⟩
          exact h.ended x (fun c p => hnone c (some p)) k v hv
        · rw [Pool.set_thread_ne s d _ _ heq] at hx
          exact h.program x c p hx
      · by_cases heq : x = u
        · exact h.ended x (fun c p => heq ▸ hnone c (some p)) k v hv
        · refine h.ended x (fun c p hc => hx c p ?_) k v hv
          rw [Pool.set_thread_ne s d _ _ heq, hc]
  | run u d st next r m hu he =>
      refine h.advance hu ((exec_change he).frame hwf) (fun p hp => ?_) (by simp)
      exact Option.some.inj hp ▸ (h.program u d _ hu r).mono (exec_leaves he)
  | skip u d st next r hu hr =>
      refine h.advance hu (.refl u s.mem) (fun p hp => ?_) (by simp)
      refine Option.some.inj hp ▸ (h.program u d _ hu r).mono fun hheld => ?_
      cases st with
      | lock k cond => trivial
      | _ => cases hr
  | abort u d st next hu =>
      exact h.advance hu (.rollback u s.mem) (by simp) fun _ => s.mem.rollback_not_held u

theorem Tidy.of_reaches {ok : Pool K V T C α → Event T C → Pool K V T C α → Prop}
    (hwf : m.WF) (hfree : ∀ k, (m.cell k).pending = none)
    (hbody : ∀ s t c, sys.may s c = true → (sys.body t c).Closes False)
    (h : Reaches sys.step ok (Pool.init m) s) : Tidy s :=
  h.invariant (.init hfree) fun s₁ _ _ hs htidy hstep _ =>
    htidy.step (System.wf hwf hs) (hbody s₁) hstep

-- The calls of a list cut off one after the other.
theorem Tidy.crash_list (h : Tidy s) (ts : List TxId) :
    ∃ s', Reaches sys.step (fun _ ev _ => ∃ t, ev = .abort t) s s' ∧ Tidy s' ∧
      (∀ k, (s'.mem.cell k).committed = (s.mem.cell k).committed) ∧
      s'.mem.keys = s.mem.keys ∧ s'.mem.clock = s.mem.clock ∧ s'.mem.opened = s.mem.opened ∧
      ∀ t ∈ ts, ∀ k v, (s'.mem.cell k).pending ≠ some (t, v) := by
  induction ts with
  | nil => exact ⟨s, .refl, h, fun _ => rfl, rfl, rfl, rfl, by simp⟩
  | cons t ts ih =>
      obtain ⟨s₁, hruns, htidy, hcommitted, hkeys, hclock, hopened, hfree⟩ := ih
      by_cases hheld : ∃ k v, (s₁.mem.cell k).pending = some (t, v)
      · have hthread : ∃ c p, s₁.thread t = some ⟨c, some p⟩ := by
          by_contra hnone
          obtain ⟨k, v, hv⟩ := hheld
          exact htidy.ended t (fun c p hp => hnone ⟨c, p, hp⟩) k v hv
        obtain ⟨c, p, hp⟩ := hthread
        have hcloses := htidy.program t c p hp
        cases p with
        | pure a => exact absurd hheld hcloses
        | op st next =>
            refine ⟨s₁.set t c none (s₁.mem.rollback t), .tail hruns ?_ ⟨t, rfl⟩,
              htidy.advance hp (.rollback t s₁.mem) (by simp)
                fun _ => s₁.mem.rollback_not_held t,
              fun k => (s₁.mem.rollback_committed t k).trans (hcommitted k), hkeys, hclock, hopened,
              fun u hu k v hv => ?_⟩
            · simp only [System.step, hp]
            · by_cases heq : u = t
              · exact s₁.mem.rollback_not_held t k v (heq ▸ hv)
              · have hold : (s₁.mem.cell k).pending = some (u, v) :=
                  (((Frame.rollback t s₁.mem).cells k).other heq v).mpr hv
                exact hfree u ((List.mem_cons.mp hu).resolve_left heq) k v hold
      · refine ⟨s₁, hruns, htidy, hcommitted, hkeys, hclock, hopened, fun u hu k v hv => ?_⟩
        rcases List.mem_cons.mp hu with rfl | hu
        · exact hheld ⟨k, v, hv⟩
        · exact hfree u hu k v hv

-- Cutting off all that is in progress leaves no row locked, and what is committed as it was.
theorem Tidy.crash (h : Tidy s) :
    ∃ s', Reaches sys.step (fun _ ev _ => ∃ t, ev = .abort t) s s' ∧
      (∀ k, (s'.mem.cell k).committed = (s.mem.cell k).committed) ∧
      (∀ k, (s'.mem.cell k).pending = none) ∧ s'.mem.keys = s.mem.keys ∧
      s'.mem.clock = s.mem.clock := by
  obtain ⟨s', hruns, htidy, hcommitted, hkeys, hclock, hopened, hfree⟩ :=
    @Tidy.crash_list K V T α _ C _ _ sys s h s.mem.opened
  refine ⟨s', hruns, hcommitted, fun k => ?_, hkeys, hclock⟩
  cases hp : (s'.mem.cell k).pending with
  | none => rfl
  | some held =>
      obtain ⟨t, v⟩ := held
      -- whoever holds a row has a call, and all calls of the run have been cut off
      by_cases hthread : s'.thread t = none
      · exact absurd hp (htidy.ended t (by simp [hthread]) k v)
      · exact absurd hp (hfree t (hopened ▸ htidy.opened t hthread) k v)

end Closing

section Descent

variable {S E : Type*} {step : S → E → Option S} {ok : S → E → S → Prop} {P : S → Prop}

-- What can always be brought nearer to zero can be brought to zero.
theorem Reaches.descend (measure : S → Nat) (hmove : ∀ s, P s → measure s ≠ 0 →
    ∃ s', Reaches step ok s s' ∧ P s' ∧ measure s' < measure s) {s : S} (hs : P s) :
    ∃ s', Reaches step ok s s' ∧ P s' ∧ measure s' = 0 := by
  induction hn : measure s using Nat.strong_induction_on generalizing s with
  | _ n ih =>
      by_cases hzero : measure s = 0
      · exact ⟨s, .refl, hs, hzero⟩
      · obtain ⟨s₁, hruns, hs₁, hless⟩ := hmove s hs hzero
        obtain ⟨s₂, hruns', hs₂, hend⟩ := ih _ (hn ▸ hless) hs₁ rfl
        exact ⟨s₂, hruns.trans hruns', hs₂, hend⟩

end Descent

section Calls

variable {C : Type} [LE T] [DecidableLE T] {sys : System K V T C α} {s s' : Pool K V T C α}

omit [DecidableEq K] [LE T] [DecidableLE T] in
theorem exists_fresh (m : Store K V T) : ∃ t, t ∉ m.opened := by
  obtain ⟨t, ht⟩ := Infinite.exists_notMem_finset m.opened.toFinset
  exact ⟨t, by rwa [List.mem_toFinset] at ht⟩

theorem Reaches.opened_of_run (h : Reaches sys.step (fun _ ev _ => ev = .run t) s s') :
    s'.mem.opened = s.mem.opened := by
  refine h.invariant (P := fun s' => s'.mem.opened = s.mem.opened) rfl ?_
  rintro s₁ ev s₂ - heq hstep rfl
  cases System.steps_of_step hstep with
  | run t c st next r m ht he => exact (exec_change he).opened.trans heq

-- A call made when no row is locked comes to its end, with nobody else at work.
theorem Reaches.call {c : C} {Q : α → Store K V T → Prop} (hfresh : t ∉ s.mem.opened)
    (hmay : sys.may s c = true) (h : Settled v now s.mem)
    (hruns : Runs t (Settled v now) (sys.body t c) Q) :
    ∃ a m', Q a m' ∧ m'.opened = t :: s.mem.opened ∧
      Reaches sys.step (fun _ ev _ => ev = .start t c ∨ ev = .run t) s
        (s.set t c (some (.pure a)) m') := by
  obtain ⟨a, m', hrun, hQ⟩ := hruns _ (h.openTx t)
  have hstart : sys.step s (.start t c) =
      some (s.set t c (some (sys.body t c)) (s.mem.openTx t)) := by
    simp [System.step, hfresh, hmay]
  have hset : (s.set t c (some (sys.body t c)) (s.mem.openTx t)).set t c (some (.pure a)) m' =
      s.set t c (some (.pure a)) m' := by
    simp [Pool.set]
  have hrest : Reaches sys.step (fun _ ev _ => ev = .run t)
      (s.set t c (some (sys.body t c)) (s.mem.openTx t)) (s.set t c (some (.pure a)) m') :=
    hset ▸ Reaches.of_run sys (Pool.set_thread_self s t c (some (sys.body t c)) _) hrun
  refine ⟨a, m', hQ, hrest.opened_of_run, .trans (.tail .refl hstart (.inl rfl)) ?_⟩
  exact hrest.mono fun _ _ _ h => .inr h

end Calls

end Txn
