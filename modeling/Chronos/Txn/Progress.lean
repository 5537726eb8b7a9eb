import Chronos.Txn.Shape
import Mathlib.Data.Finset.Defs
import Mathlib.Data.Fintype.Card
import Mathlib.Data.Multiset.Filter
import Mathlib.Logic.Hydra

namespace Txn

variable {K : Type} {V : K → Type} {T C α β γ : Type} {t u : TxId}

section Programs

-- The program left when a statement of `p` has executed.
inductive Prog.Next : Prog K V T α → Prog K V T α → Prop
  | mk {β : Type} (st : Stmt K V T β) (next : β → Prog K V T α) (r : β) : Next (next r) (.op st next)

theorem Prog.wellFounded_next : WellFounded (Prog.Next : Prog K V T α → Prog K V T α → Prop) := by
  refine ⟨fun p => ?_⟩
  induction p with
  | pure a => exact ⟨_, fun q h => nomatch h⟩
  | op st next ih =>
      refine ⟨_, fun q h => ?_⟩
      cases h with
      | mk st next r => exact ih r

-- A call returns right behind a ROLLBACK. `released`: the statement before was one.
def Prog.LastReleases (released : Bool) : Prog K V T α → Prop
  | .pure _ => released = true
  | .op st next => ∀ r, (next r).LastReleases st.releases

namespace Prog.LastReleases

theorem bind {released : Bool} {p : Prog K V T α} {f : α → Prog K V T β}
    (hf : ∀ a released, (f a).LastReleases released) : (p >>= f).LastReleases released := by
  rw [bind_eq]
  induction p generalizing released with
  | pure a => exact hf a released
  | op st next ih => exact fun r => ih r

theorem map {released : Bool} {p : Prog K V T α} (hp : p.LastReleases released) (f : α → β) :
    (p >>= fun a => pure (f a)).LastReleases released := by
  rw [bind_eq]
  induction p generalizing released with
  | pure a => exact hp
  | op st next ih => exact fun r => ih r (hp r)

theorem rollback {released : Bool} (a : α) :
    (Txn.stmt .rollback >>= fun _ => pure a : Prog K V T α).LastReleases released :=
  fun _ => rfl

end Prog.LastReleases

-- An INSERT has a key of its own.
def Stmt.NewKey (m : Store K V T) : Stmt K V T β → Prop
  | .insert k _ _ => k ∉ m.keys
  | _ => True

instance [DecidableEq K] (m : Store K V T) (st : Stmt K V T β) : Decidable (st.NewKey m) :=
  match st with
  | .insert k _ _ => inferInstanceAs (Decidable (k ∉ m.keys))
  | .begin | .select _ | .lock _ _ | .update _ _ _ | .recheck _ _ _ | .write _ _ | .commit
  | .rollback => .isTrue trivial

end Programs

section Stuck

variable [DecidableEq K] {m : Store K V T}

omit [DecidableEq K] in
theorem exists_holder {k : K} (h : (m.cell k).freeFor t ≠ true) :
    ∃ u v, (m.cell k).pending = some (u, v) ∧ u ≠ t := by
  cases hp : (m.cell k).pending with
  | none => simp [Cell.freeFor, hp] at h
  | some p =>
      refine ⟨p.1, p.2, rfl, fun heq => h ?_⟩
      simp [Cell.freeFor, hp, heq]

-- A statement that cannot execute waits for another transaction.
theorem Stmt.waits_of_stuck {st : Stmt K V T β} (h : exec t st m = none) (hnew : st.NewKey m) :
    ∃ k v u, st.needs k v ∧ (m.cell k).pending = some (u, v) ∧ u ≠ t := by
  cases st with
  | update k cond set =>
      simp only [exec] at h
      split at h
      · split at h
        · split at h
          · cases h
          · rename_i hfree
            obtain ⟨u, v, hp, hne⟩ := exists_holder hfree
            exact ⟨k, v, u, rfl, hp, hne⟩
        · cases h
      · cases h
  | recheck k cond set =>
      simp only [exec] at h
      split at h
      · split at h
        · split at h <;> cases h
        · rename_i hfree
          obtain ⟨u, v, hp, hne⟩ := exists_holder hfree
          exact ⟨k, v, u, rfl, hp, hne⟩
      · cases h
  | insert k row clash =>
      have hk : k ∉ m.keys := hnew
      simp only [exec, if_neg hk] at h
      split at h
      · cases h
      · rename_i hclash
        split at h
        · rename_i hwaits
          obtain ⟨k', hk', hp⟩ := List.any_eq_true.mp hwaits
          obtain ⟨p, hp, hrow⟩ := (Option.any_eq_true _ _).mp hp
          refine ⟨k', p.2, p.1, hrow, hp, fun heq => hclash ?_⟩
          refine List.any_eq_true.mpr ⟨k', hk', ?_⟩
          rw [Cell.seen_of_held (v := p.2) (heq ▸ hp)]
          exact hrow
        · cases h
  | lock k cond =>
      simp only [exec] at h
      split at h
      · split at h <;> cases h
      · cases h
  | write k set =>
      simp only [exec] at h
      split at h
      · split at h <;> cases h
      · cases h
  | _ => simp [exec] at h

variable (t m) in
-- The transactions a statement of `t` waits for.
def Stmt.blockers : Stmt K V T β → List TxId
  | .update k _ _ => ((m.cell k).pending.map Prod.fst).toList.filter fun u => u ≠ t
  | .recheck k _ _ => ((m.cell k).pending.map Prod.fst).toList.filter fun u => u ≠ t
  | .insert _ _ clash => (m.keys.filterMap fun k => (m.cell k).pending.bind fun p =>
      if clash k p.2 then some p.1 else none).filter fun u => u ≠ t
  | _ => []

omit [DecidableEq K] in
theorem Stmt.mem_blockers (hwf : m.WF) {st : Stmt K V T β} : u ∈ st.blockers t m ↔
    ∃ k v, st.needs k v ∧ (m.cell k).pending = some (u, v) ∧ u ≠ t := by
  cases st with
  | insert k row clash =>
      simp only [blockers, needs, List.mem_filter, List.mem_filterMap, Option.bind_eq_some_iff,
        Option.ite_none_right_eq_some, Option.some.injEq, decide_eq_true_eq]
      constructor
      · rintro ⟨⟨k', -, p, hp, hclash, rfl⟩, hne⟩
        exact ⟨k', p.2, hclash, hp, hne⟩
      · rintro ⟨k', v, hclash, hp, hne⟩
        refine ⟨⟨k', ?_, (u, v), hp, hclash, rfl⟩, hne⟩
        by_contra hk'
        simp [hwf.absent k' hk', Cell.empty] at hp
  | _ => simp [blockers, needs]

end Stuck

section Pools

variable {s s' : Pool K V T C α}

def Pool.blockers (s : Pool K V T C α) (t : TxId) : List TxId :=
  match s.thread t with
  | some ⟨_, some (.op st _)⟩ => st.blockers t s.mem
  | _ => []

theorem Pool.mem_blockers (hwf : s.mem.WF) : u ∈ s.blockers t ↔ WaitsFor s t u := by
  unfold blockers
  constructor
  · intro hu
    split at hu
    · rename_i c β st next ht
      obtain ⟨k, v, hneeds, hv, hne⟩ := (Stmt.mem_blockers hwf).mp hu
      exact ⟨c, β, st, next, k, v, ht, hneeds, hv, hne⟩
    · simp at hu
  · rintro ⟨c, β, st, next, k, v, ht, hneeds, hv, hne⟩
    rw [ht]
    exact (Stmt.mem_blockers hwf).mpr ⟨k, v, hneeds, hv, hne⟩

-- Whoever waits, waits for one that does not.
theorem Pool.no_circle (hwf : s.mem.WF) (h : ∀ t, ∀ u ∈ s.blockers t, s.blockers u = []) (t : TxId) :
    ¬ Relation.TransGen (WaitsFor s) t t := by
  intro hcircle
  obtain ⟨u, hut, -⟩ := Relation.TransGen.head'_iff.mp hcircle
  obtain ⟨v, -, hvt⟩ := Relation.TransGen.tail'_iff.mp hcircle
  have hu := (mem_blockers hwf).mpr hut
  rw [h v t ((mem_blockers hwf).mpr hvt)] at hu
  exact absurd hu List.not_mem_nil

-- The call of `t` has not returned yet.
def Pool.Busy (s : Pool K V T C α) (t : TxId) : Prop :=
  ∃ (c : C) (β : Type) (st : Stmt K V T β) (next : β → Prog K V T α),
    s.thread t = some ⟨c, some (.op st next)⟩

-- The rows that calls in progress insert have new keys.
def Pool.NewKeys (s : Pool K V T C α) : Prop :=
  ∀ t c {β : Type} (st : Stmt K V T β) next, s.thread t = some ⟨c, some (.op st next)⟩ →
    st.NewKey s.mem

-- Rows are held by calls in progress, and by none that has just released its rows.
structure Pool.Releasing (s : Pool K V T C α) : Prop where
  held : ∀ k t v, (s.mem.cell k).pending = some (t, v) → ∃ c p, s.thread t = some ⟨c, some p⟩
  ends : ∀ t c p, s.thread t = some ⟨c, some p⟩ →
    ∃ released, p.LastReleases released ∧ (released = true → s.mem.Idle t)
  opened : ∀ t, s.thread t ≠ none → t ∈ s.mem.opened

namespace Pool.Releasing

theorem init {m : Store K V T} (hunlocked : ∀ k, (m.cell k).pending = none) :
    (Pool.init m : Pool K V T C α).Releasing where
  held k t v hv := by simp [Pool.init, hunlocked] at hv
  ends t c p ht := by simp [Pool.init] at ht
  opened t ht := by simp [Pool.init] at ht

theorem busy (h : s.Releasing) {k : K} {v : V k} (hv : (s.mem.cell k).pending = some (t, v)) :
    s.Busy t := by
  obtain ⟨c, p, ht⟩ := h.held k t v hv
  obtain ⟨released, hreleases, hidle⟩ := h.ends t c p ht
  cases p with
  | pure a => exact absurd hv (hidle hreleases k v)
  | op st next => exact ⟨c, _, st, next, ht⟩

-- The call of `t` moves on, or is cut off.
theorem set (h : s.Releasing) {c : C} {p : Prog K V T α} (ht : s.thread t = some ⟨c, some p⟩)
    {rest : Option (Prog K V T α)} {m : Store K V T} (hf : Frame t s.mem m)
    (hheld : rest = none → m.Idle t) (hends : ∀ q, rest = some q →
      ∃ released, q.LastReleases released ∧ (released = true → m.Idle t)) :
    (s.set t c rest m).Releasing where
  held k u v hv := by
    by_cases heq : u = t
    · subst heq
      cases rest with
      | none => exact absurd hv (hheld rfl k v)
      | some q => exact ⟨c, q, by simp⟩
    · rw [Pool.set_thread_ne s c rest m heq]
      exact h.held k u v (((hf.cells k).other heq v).mpr hv)
  ends u d q hu := by
    by_cases heq : u = t
    · subst heq
      rw [Pool.set_thread_self, Option.some.injEq, Thread.mk.injEq] at hu
      exact hends q hu.2
    · rw [Pool.set_thread_ne s c rest m heq] at hu
      obtain ⟨released, hreleases, hidle⟩ := h.ends u d q hu
      refine ⟨released, hreleases, fun hr k v hv => ?_⟩
      exact hidle hr k v (((hf.cells k).other heq v).mpr hv)
  opened u hu := by
    rw [Pool.set_mem, hf.opened]
    by_cases heq : u = t
    · exact h.opened u (by simp [heq, ht])
    · rw [Pool.set_thread_ne s c rest m heq] at hu
      exact h.opened u hu

variable [DecidableEq K] [LE T] [DecidableLE T] {sys : System K V T C α} {ev : Event T C}

theorem step (h : s.Releasing) (hwf : s.mem.WF)
    (hbody : ∀ t c, sys.may s c = true → (sys.body t c).LastReleases false)
    (hstep : sys.step s ev = some s') : s'.Releasing := by
  cases System.steps_of_step hstep with
  | tick now hnow => exact ⟨h.held, h.ends, h.opened⟩
  | start t c hfresh hmay =>
      refine ⟨fun k u v hv => ?_, fun u d q hu => ?_, fun u hu => ?_⟩
      · by_cases heq : u = t
        · exact ⟨c, sys.body t c, by simp [heq]⟩
        · rw [Pool.set_thread_ne s c _ _ heq]
          exact h.held k u v hv
      · by_cases heq : u = t
        · subst heq
          rw [Pool.set_thread_self, Option.some.injEq, Thread.mk.injEq, Option.some.injEq] at hu
          exact ⟨false, hu.2 ▸ hbody u c hmay, fun hno => absurd hno Bool.false_ne_true⟩
        · rw [Pool.set_thread_ne s c _ _ heq] at hu
          exact h.ends u d q hu
      · by_cases heq : u = t
        · exact heq ▸ List.mem_cons_self
        · rw [Pool.set_thread_ne s c _ _ heq] at hu
          exact List.mem_cons_of_mem _ (h.opened u hu)
  | run t c st next r m ht he =>
      refine h.set ht ((exec_change he).frame hwf) (fun hno => nomatch hno) fun q hq => ?_
      obtain rfl := Option.some.inj hq
      obtain ⟨released, hreleases, -⟩ := h.ends t c _ ht
      refine ⟨st.releases, hreleases r, fun hrolled => ?_⟩
      cases st with
      | rollback =>
          simp only [exec, Option.some.injEq, Prod.mk.injEq] at he
          obtain ⟨-, rfl⟩ := he
          exact fun k v => s.mem.rollback_not_held t k v
      | _ => simp [Stmt.releases] at hrolled
  | skip t c st next r ht hr =>
      refine h.set ht (.refl t s.mem) (fun hno => nomatch hno) fun q hq => ?_
      obtain rfl := Option.some.inj hq
      obtain ⟨released, hreleases, -⟩ := h.ends t c _ ht
      refine ⟨st.releases, hreleases r, fun hrolled => ?_⟩
      cases st with
      | rollback => cases hr
      | _ => simp [Stmt.releases] at hrolled
  | abort t c st next ht =>
      refine h.set ht (.rollback t s.mem) (fun _ k v => s.mem.rollback_not_held t k v) fun q hq => ?_
      cases hq

theorem of_reaches {ok : Pool K V T C α → Event T C → Pool K V T C α → Prop} {m : Store K V T}
    (hwf : m.WF) (hunlocked : ∀ k, (m.cell k).pending = none)
    (hbody : ∀ s t c, sys.may s c = true → (sys.body t c).LastReleases false)
    (h : Reaches sys.step ok (Pool.init m) s) : s.Releasing :=
  h.invariant (init hunlocked) fun s _ _ hs hr hstep _ =>
    hr.step (System.wf hwf hs) (fun t c => hbody s t c) hstep

-- Where transactions do not wait for each other in a circle, some call can go on as long as any
-- has not returned.
theorem goes_on (h : s.Releasing) (hnew : s.NewKeys)
    (hcircle : ∀ t, ¬ Relation.TransGen (WaitsFor s) t t) (ht : s.Busy t) :
    ∃ u s', sys.step s (.run u) = some s' := by
  by_contra hstuck
  simp only [not_exists] at hstuck
  have hwaits : ∀ t, s.Busy t → ∃ u, WaitsFor s t u ∧ s.Busy u := by
    rintro t ⟨c, β, st, next, ht⟩
    have hnone : exec t st s.mem = none := by
      cases he : exec t st s.mem with
      | none => rfl
      | some p =>
          exact absurd (by simp [System.step, ht, he]) (hstuck t (s.set t c (some (next p.1)) p.2))
    obtain ⟨k, v, u, hneeds, hv, hne⟩ := Stmt.waits_of_stuck hnone (hnew t c st next ht)
    exact ⟨u, ⟨c, β, st, next, k, v, ht, hneeds, hv, hne⟩, h.busy hv⟩
  -- the chain of those who wait stays within the transactions that are open
  let Opened := {t : TxId // t ∈ s.mem.opened}
  let later : Opened → Opened → Prop := fun a b => Relation.TransGen (WaitsFor s) b.1 a.1
  have : IsTrans Opened later := ⟨fun a b c hab hbc => hbc.trans hab⟩
  have : Std.Irrefl later := ⟨fun a => hcircle a.1⟩
  have : Finite Opened := (List.finite_toSet s.mem.opened).to_subtype
  have hwf : WellFounded later := Finite.wellFounded_of_trans_of_irrefl later
  have hnever : ∀ a : Opened, ¬ s.Busy a.1 := by
    intro a
    induction a using hwf.induction with
    | _ a ih =>
      intro ha
      obtain ⟨u, hu, hbusy⟩ := hwaits a.1 ha
      have huopen : u ∈ s.mem.opened := by
        obtain ⟨c, β, st, next, hthread⟩ := hbusy
        exact h.opened u (by simp [hthread])
      exact ih ⟨u, huopen⟩ (.single hu) hbusy
  obtain ⟨c, β, st, next, hthread⟩ := ht
  exact hnever ⟨t, h.opened t (by simp [hthread])⟩ ⟨c, β, st, next, hthread⟩

end Pool.Releasing

-- What is left of the calls of `ts`.
def Pool.programs (ts : Finset TxId) (s : Pool K V T C α) : Multiset (Prog K V T α) :=
  ts.val.filterMap fun t => (s.thread t).bind Thread.rest

theorem Pool.programs_set {ts : Finset TxId} (ht : t ∈ ts) {c : C} {p q : Prog K V T α}
    {m : Store K V T} (hp : s.thread t = some ⟨c, some p⟩) (hnext : q.Next p) :
    Relation.CutExpand Prog.Next ((s.set t c (some q) m).programs ts) (s.programs ts) := by
  obtain ⟨others, hts⟩ := Multiset.exists_cons_of_mem (Finset.mem_val.mpr ht)
  have hnodup := ts.nodup
  rw [hts, Multiset.nodup_cons] at hnodup
  have hothers : others.filterMap (fun u => ((s.set t c (some q) m).thread u).bind Thread.rest) =
      others.filterMap fun u => (s.thread u).bind Thread.rest := by
    refine Quotient.inductionOn others (fun l hnot => ?_) hnodup.1
    refine congrArg Multiset.ofList (List.filterMap_congr fun u hu => ?_)
    rw [Pool.set_thread_ne s c (some q) m]
    exact fun heq => hnot (heq ▸ hu)
  rw [programs, programs, hts, Multiset.filterMap_cons_some _ t others (b := q) (by simp),
    Multiset.filterMap_cons_some _ t others (b := p) (by simp [hp]), hothers]
  have hcut := Relation.cutExpand_single_add hnext
    (others.filterMap fun u => (s.thread u).bind Thread.rest)
  rwa [Multiset.singleton_add, Multiset.singleton_add] at hcut

variable [DecidableEq K] [LE T] [DecidableLE T]

-- The calls in progress cannot go on for ever.
theorem System.ends (sys : System K V T C α) (hopened : ∀ t, s.thread t ≠ none → t ∈ s.mem.opened) :
    Acc (fun s₂ s₁ => ∃ t, sys.step s₁ (.run t) = some s₂) s := by
  have hwf := (Prog.wellFounded_next (K := K) (V := V) (T := T) (α := α)).cutExpand
  suffices hall : ∀ (ts : Finset TxId) (ps : Multiset (Prog K V T α)) (s : Pool K V T C α),
      (∀ t, s.thread t ≠ none → t ∈ ts) → s.programs ts = ps →
        Acc (fun s₂ s₁ => ∃ t, sys.step s₁ (.run t) = some s₂) s by
    exact hall s.mem.opened.toFinset _ s (fun t ht => List.mem_toFinset.mpr (hopened t ht)) rfl
  intro ts ps
  induction ps using hwf.induction with
  | _ ps ih =>
    rintro s hts rfl
    refine ⟨_, fun s' hstep => ?_⟩
    obtain ⟨t, hstep⟩ := hstep
    cases System.steps_of_step hstep with
    | run t c st next r m ht he =>
        have hmem : t ∈ ts := hts t (by simp [ht])
        refine ih _ (Pool.programs_set hmem ht (.mk st next r)) _ (fun u hu => ?_) rfl
        by_cases heq : u = t
        · exact heq ▸ hmem
        · rw [Pool.set_thread_ne s c _ _ heq] at hu
          exact hts u hu

end Pools

end Txn
