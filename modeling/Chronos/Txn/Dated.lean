import Chronos.Txn.Shape
import Mathlib.Order.Basic

namespace Txn

variable {K : Type} {V : K → Type} {T C α β : Type}

-- What a transaction may hold over the committed version of a row, by the instant it began at.
abbrev Dates (K : Type) (V : K → Type) (T : Type) := T → ∀ k, Option (V k) → V k → Prop

-- The statements behind a BEGIN that keep to it, and to what holds of every version of a row. A row
-- that is locked and not fit to be changed stays as it is: only one of those that are held for
-- certain counts as changed.
def Stmt.InDate (D : Dates K V T) (ok : ∀ k, V k → Prop) (now : T) (held : Locks K) :
    Stmt K V T β → Prop
  | .begin => False
  | .lock k cond => ∀ v, cond v = true → D now k (some v) v
  | .update k cond set => ∀ base v, ok k v → base = some v ∨ D now k base v → cond v = true →
      ok k (set v) ∧ D now k base (set v)
  | .recheck k cond set => ∀ base v, ok k v → base = some v ∨ D now k base v → cond v = true →
      ok k (set v) ∧ D now k base (set v)
  | .write k set => ∀ base v, ok k v → base = some v ∧ ¬ held.must k ∨ D now k base v →
      ok k (set v) ∧ D now k base (set v)
  | .insert k row _ => ok k row ∧ D now k none row
  | _ => True

-- What is known of a row that is returned.
def Stmt.Finds (ok : ∀ k, V k → Prop) : Stmt K V T β → β → Prop
  | .lock k _, r => ∀ v, r = some v → ok k v
  | _, _ => True

-- A program all of whose statements keep to the dates, and `Q` of what it returns and holds.
def Prog.KeepsDates (D : Dates K V T) (ok : ∀ k, V k → Prop) (now : T) (Q : α → Locks K → Prop) :
    Locks K → Prog K V T α → Prop
  | held, .pure a => Q a held
  | held, .op st next => st.InDate D ok now held ∧
      ∀ r, st.Finds ok r → (next r).KeepsDates D ok now Q (st.after held r)

namespace Prog.KeepsDates

variable {D : Dates K V T} {ok : ∀ k, V k → Prop} {now : T} {Q : α → Locks K → Prop} {held : Locks K}

theorem pure {a : α} (h : Q a held) : (Pure.pure a : Prog K V T α).KeepsDates D ok now Q held := h

theorem bind {p : Prog K V T α} {f : α → Prog K V T β} {S : β → Locks K → Prop}
    (hp : p.KeepsDates D ok now Q held)
    (hf : ∀ a held', Q a held' → (f a).KeepsDates D ok now S held') :
    (p >>= f).KeepsDates D ok now S held := by
  rw [bind_eq]
  induction p generalizing held with
  | pure a => exact hf a held hp
  | op st next ih => exact ⟨hp.1, fun r hr => ih r (hp.2 r hr)⟩

theorem stmt {st : Stmt K V T α} {f : α → Prog K V T β} {S : β → Locks K → Prop}
    (hst : st.InDate D ok now held)
    (hf : ∀ r, st.Finds ok r → (f r).KeepsDates D ok now S (st.after held r)) :
    (Txn.stmt st >>= f).KeepsDates D ok now S held :=
  ⟨hst, hf⟩

theorem mono {Q' : α → Locks K → Prop} {p : Prog K V T α} (hp : p.KeepsDates D ok now Q held)
    (h : ∀ a held', Q a held' → Q' a held') : p.KeepsDates D ok now Q' held := by
  induction p generalizing held with
  | pure a => exact h a held hp
  | op st next ih => exact ⟨hp.1, fun r hr => ih r (hp.2 r hr)⟩

-- Where it is no matter what is held.
theorem of_all {p : Prog K V T α} (h : p.All fun st => ∀ held, st.InDate D ok now held) :
    p.KeepsDates D ok now (fun _ _ => True) held := by
  induction p generalizing held with
  | pure a => trivial
  | op st next ih => exact ⟨h.1 held, fun r _ => ih r (h.2 r)⟩

end Prog.KeepsDates

-- A program that is one transaction and keeps to the dates.
def Prog.InDate (D : Dates K V T) (ok : ∀ k, V k → Prop) (p : Prog K V T α) : Prop :=
  ∃ next, p = .op .begin next ∧ ∀ now, (next now).KeepsDates D ok now (fun _ _ => True) .none

theorem Prog.InDate.of_begin {D : Dates K V T} {ok : ∀ k, V k → Prop} {f : T → Prog K V T α}
    {g : α → Prog K V T β} (hf : ∀ now, (f now).KeepsDates D ok now (fun _ _ => True) .none)
    (hg : ∀ now a held, (g a).KeepsDates D ok now (fun _ _ => True) held) :
    Prog.InDate D ok ((Txn.stmt .begin >>= f) >>= g) :=
  ⟨fun now => f now >>= g, rfl, fun now => (hf now).bind fun a held _ => hg now a held⟩

-- Each row that `t` holds is as it is committed or as the dates say, and those that it holds for
-- certain are as the dates say.
structure Store.HeldBy (D : Dates K V T) (ok : ∀ k, V k → Prop) (t : TxId) (now : T)
    (held : Locks K) (m : Store K V T) : Prop where
  dated : ∀ k v, (m.cell k).pending = some (t, v) →
    ok k v ∧ ((m.cell k).committed = some v ∨ D now k (m.cell k).committed v)
  certain : ∀ k, held.must k →
    ∃ v, (m.cell k).pending = some (t, v) ∧ D now k (m.cell k).committed v

-- What is left of a transaction, and what it holds.
inductive Dated (D : Dates K V T) (ok : ∀ k, V k → Prop) (t : TxId) (now : T) (m : Store K V T) :
    Prog K V T α → Prop
  | fresh (next : T → Prog K V T α)
      (hnext : ∀ now, (next now).KeepsDates D ok now (fun _ _ => True) .none) (hidle : m.Idle t) :
      Dated D ok t now m (.op .begin next)
  | begun (p : Prog K V T α) (held : Locks K) (hp : p.KeepsDates D ok now (fun _ _ => True) held)
      (hheld : m.HeldBy D ok t now held) : Dated D ok t now m p

section Held

variable {D : Dates K V T} {ok : ∀ k, V k → Prop} {t : TxId} {now : T} {held : Locks K}
  {m m' : Store K V T}

theorem Store.HeldBy.of_idle (h : m.Idle t) : m.HeldBy D ok t now .none where
  dated k v hp := absurd hp (h k v)
  certain _ hk := hk.elim

theorem Store.HeldBy.other {u : TxId} (h : m.HeldBy D ok t now held) (hne : t ≠ u)
    (hf : Frame u m m') : m'.HeldBy D ok t now held where
  dated k v hp := by
    have hp₀ := ((hf.cells k).other hne v).mpr hp
    rw [(hf.cells k).frame hne hp₀]
    exact h.dated k v hp₀
  certain k hk := by
    obtain ⟨v, hp, hv⟩ := h.certain k hk
    refine ⟨v, ((hf.cells k).other hne v).mp hp, ?_⟩
    rwa [(hf.cells k).frame hne hp]

-- The statement has taken nothing.
theorem Store.HeldBy.missed (h : m.HeldBy D ok t now held) (k : K) {got : Prop} (hgot : ¬ got) :
    m.HeldBy D ok t now (held.add k got) where
  dated := h.dated
  certain k' hk := hk.elim (h.certain k') fun hadd => absurd hadd.1 hgot

-- Over what row a statement works that has seen `v`.
theorem Store.HeldBy.base (h : m.HeldBy D ok t now held)
    (hok : ∀ k v, (m.cell k).committed = some v → ok k v) {k : K} {v : V k}
    (hv : (m.cell k).seen t = some v) :
    ok k v ∧ ((m.cell k).committed = some v ∨ D now k (m.cell k).committed v) := by
  rcases Cell.seen_cases hv with hp | hc
  · exact h.dated k v hp
  · exact ⟨hok k v hc, .inl hc⟩

variable [DecidableEq K]

theorem Store.HeldBy.own (h : m.HeldBy D ok t now held) {k : K} {v : V k}
    (hv : ok k v ∧ D now k (m.cell k).committed v) (got : Prop) :
    (m.own t k v).HeldBy D ok t now (held.add k got) where
  dated k' v' hp := by
    by_cases hk : k' = k
    · subst hk
      rw [Store.own_cell_self, Option.some.injEq, Prod.mk.injEq] at hp
      rw [Store.own_cell_self]
      exact hp.2 ▸ ⟨hv.1, .inr hv.2⟩
    · rw [Store.own_cell_ne t k v m hk] at hp ⊢
      exact h.dated k' v' hp
  certain k' hk' := by
    by_cases hk : k' = k
    · subst hk
      exact ⟨v, by rw [Store.own_cell_self], by rw [Store.own_cell_self]; exact hv.2⟩
    · rw [Store.own_cell_ne t k v m hk]
      exact hk'.elim (h.certain k') fun hadd => absurd hadd.2 hk

-- The lock is taken and the row is left as it was seen.
theorem Store.HeldBy.keep (h : m.HeldBy D ok t now held)
    (hok : ∀ k v, (m.cell k).committed = some v → ok k v) {k : K} {v : V k} {got : Prop}
    (hgot : ¬ got) (hv : (m.cell k).seen t = some v) :
    (m.own t k v).HeldBy D ok t now (held.add k got) where
  dated k' v' hp := by
    by_cases hk : k' = k
    · subst hk
      rw [Store.own_cell_self, Option.some.injEq, Prod.mk.injEq] at hp
      rw [Store.own_cell_self]
      exact hp.2 ▸ h.base hok hv
    · rw [Store.own_cell_ne t k v m hk] at hp ⊢
      exact h.dated k' v' hp
  certain k' hk' := by
    rcases hk' with hmust | hadd
    · obtain ⟨w, hp, hw⟩ := h.certain k' hmust
      by_cases hk : k' = k
      · subst hk
        obtain rfl : w = v := Option.some.inj ((Cell.seen_of_held hp).symm.trans hv)
        exact ⟨w, by rw [Store.own_cell_self], by rwa [Store.own_cell_self]⟩
      · rw [Store.own_cell_ne t k v m hk]
        exact ⟨w, hp, hw⟩
    · exact absurd hadd.1 hgot

theorem Store.HeldBy.exec {st : Stmt K V T β} {r : β} (h : m.HeldBy D ok t now held) (hwf : m.WF)
    (hok : ∀ k v, (m.cell k).committed = some v → ok k v) (hst : st.InDate D ok now held)
    (he : exec t st m = some (r, m')) : m'.HeldBy D ok t now (st.after held r) := by
  cases st with
  | begin => exact hst.elim
  | select query =>
      simp only [Txn.exec, Option.some.injEq, Prod.mk.injEq] at he
      exact he.2 ▸ h
  | lock k cond =>
      rcases exec_lock he with ⟨rfl, rfl⟩ | ⟨v, hseen, -, rfl, ⟨-, rfl⟩ | ⟨hcond, rfl⟩⟩
      · exact h.missed k (by simp)
      · exact h.keep hok (by simp) hseen
      · obtain ⟨hv, hbase⟩ := h.base hok hseen
        refine h.own ⟨hv, ?_⟩ _
        rcases hbase with hcommitted | hdated
        · exact hcommitted ▸ hst v hcond
        · exact hdated
  | update k cond set =>
      rcases exec_update he with ⟨rfl, rfl, -⟩ | ⟨v, hseen, hcond, -, rfl, rfl⟩
      · exact h.missed k (by simp)
      · obtain ⟨hv, hbase⟩ := h.base hok hseen
        exact h.own (hst _ v hv hbase hcond) _
  | recheck k cond set =>
      rcases exec_recheck he with ⟨rfl, rfl, -⟩ | ⟨v, hseen, -, ⟨-, rfl, rfl⟩ | ⟨hcond, rfl, rfl⟩⟩
      · exact h.missed k (by simp)
      · exact h.keep hok (by simp) hseen
      · obtain ⟨hv, hbase⟩ := h.base hok hseen
        exact h.own (hst _ v hv hbase hcond) _
  | write k set =>
      rcases exec_write he with ⟨-, rfl, -⟩ | ⟨v, hp, -, rfl⟩
      · exact h
      · obtain ⟨hv, hbase⟩ := h.dated k v hp
        have hown := h.own (k := k) (v := set v) ?_ False
        · exact ⟨hown.dated, fun k' hk' => hown.certain k' (.inl hk')⟩
        · apply hst _ v hv
          by_cases hmust : held.must k
          · obtain ⟨w, hw, hdated⟩ := h.certain k hmust
            rw [hp, Option.some.injEq, Prod.mk.injEq] at hw
            exact .inr (hw.2 ▸ hdated)
          · exact hbase.imp_left fun hcommitted => ⟨hcommitted, hmust⟩
  | insert k row clash =>
      obtain ⟨hk, ⟨rfl, rfl, -⟩ | ⟨rfl, rfl, -⟩⟩ := exec_insert he
      · exact h.missed k (by simp)
      · have hown := h.own (k := k) (v := row) (by rw [hwf.absent k hk]; exact hst) (true = true)
        exact ⟨hown.dated, hown.certain⟩
  | commit =>
      simp only [Txn.exec, Option.some.injEq, Prod.mk.injEq] at he
      exact he.2 ▸ .of_idle (m.commit_not_held t)
  | rollback =>
      simp only [Txn.exec, Option.some.injEq, Prod.mk.injEq] at he
      exact he.2 ▸ .of_idle (m.rollback_not_held t)

theorem Store.HeldBy.finds {st : Stmt K V T β} {r : β} (h : m.HeldBy D ok t now held)
    (hok : ∀ k v, (m.cell k).committed = some v → ok k v) (he : Txn.exec t st m = some (r, m')) :
    st.Finds ok r := by
  cases st with
  | lock k cond =>
      intro w hw
      rcases exec_lock he with ⟨rfl, -⟩ | ⟨v, hseen, -, -, ⟨-, rfl⟩ | ⟨-, rfl⟩⟩
      · cases hw
      · cases hw
      · exact Option.some.inj hw ▸ (h.base hok hseen).1
  | _ => trivial

end Held

section Frozen

variable [DecidableEq K] [LE T] [DecidableLE T] {sys : System K V T C α} {s s' : Pool K V T C α}
  {t : TxId} {ev : Event T C}

-- A transaction loses a row it holds by its own doing only.
theorem System.held_of_step (h : sys.step s ev = some s') (hwf : s.mem.WF) (hrun : ev ≠ .run t)
    (habort : ev ≠ .abort t) {k : K} {v : V k} (hp : (s.mem.cell k).pending = some (t, v)) :
    (s'.mem.cell k).pending = some (t, v) := by
  cases System.steps_of_step h with
  | tick now hnow => exact hp
  | start u c hfresh hmay => exact hp
  | run u c st next r m hu he =>
      have hne : t ≠ u := fun heq => hrun (heq ▸ rfl)
      exact ((((exec_change he).frame hwf).cells k).other hne v).mp hp
  | skip u c st next r hu hr => exact hp
  | abort u c st next hu =>
      have hne : t ≠ u := fun heq => habort (heq ▸ rfl)
      exact (((Frame.rollback u s.mem).cells k).other hne v).mp hp

end Frozen

section Pool

variable [DecidableEq K] [Preorder T] [DecidableLE T] {s s' : Pool K V T C α} {t : TxId} {c : C}

-- The calls of a pool keep to the dates of their transactions, which are not in the future.
structure InDate (D : C → Dates K V T) (ok : ∀ k, V k → Prop) (R : C → Prop) (s : Pool K V T C α) :
    Prop where
  opened : ∀ t, s.thread t ≠ none → t ∈ s.mem.opened
  held : ∀ k t v, (s.mem.cell k).pending = some (t, v) → t ∈ s.mem.opened
  dated : ∀ t c p, s.thread t = some ⟨c, some p⟩ → R c →
    ∃ now ≤ s.mem.clock, Dated (D c) ok t now s.mem p

variable {D : C → Dates K V T} {ok : ∀ k, V k → Prop} {R : C → Prop} {sys : System K V T C α}

omit [DecidableEq K] [DecidableLE T] in
theorem InDate.init {m : Store K V T} (hfree : ∀ k, (m.cell k).pending = none) :
    InDate D ok R (Pool.init m : Pool K V T C α) where
  opened t ht := absurd rfl ht
  held k t v hv := by simp [Pool.init, hfree] at hv
  dated t c p ht := by cases ht

omit [DecidableEq K] [DecidableLE T] in
-- A call moves on, or is cut off.
theorem InDate.advance (h : InDate D ok R s) {rest₀ rest : Option (Prog K V T α)}
    {m : Store K V T} (ht : s.thread t = some ⟨c, rest₀⟩) (hf : Frame t s.mem m)
    (hrest : ∀ p, rest = some p → R c → ∃ now ≤ m.clock, Dated (D c) ok t now m p) :
    InDate D ok R (s.set t c rest m) where
  opened u hu := by
    rw [Pool.set_mem, hf.opened]
    apply h.opened
    intro hnone
    by_cases heq : u = t
    · rw [heq, ht] at hnone
      cases hnone
    · exact hu (by rw [Pool.set_thread_ne s c rest m heq, hnone])
  held k u v hv := by
    rw [Pool.set_mem] at hv
    rw [Pool.set_mem, hf.opened]
    by_cases heq : u = t
    · exact heq ▸ h.opened t (by simp [ht])
    · exact h.held k u v (((hf.cells k).other heq v).mpr hv)
  dated u d p hu hR := by
    by_cases heq : u = t
    · subst heq
      rw [Pool.set_thread_self, Option.some.injEq, Thread.mk.injEq] at hu
      obtain ⟨rfl, rfl⟩ := hu
      exact hrest p rfl hR
    · rw [Pool.set_thread_ne s c rest m heq] at hu
      obtain ⟨now, hnow, hdated⟩ := h.dated u d p hu hR
      refine ⟨now, by rw [Pool.set_mem, hf.clock]; exact hnow, ?_⟩
      cases hdated with
      | fresh next hnext hidle =>
          exact .fresh next hnext fun k v hv => hidle k v (((hf.cells k).other heq v).mpr hv)
      | begun p held hp hheld => exact .begun p held hp (hheld.other heq hf)

theorem InDate.step {ev : Event T C} (h : InDate D ok R s) (hwf : s.mem.WF)
    (hbody : ∀ t c, R c → (sys.body t c).InDate (D c) ok)
    (hok : ∀ k v, (s.mem.cell k).committed = some v → ok k v)
    (hstep : sys.step s ev = some s') : InDate D ok R s' := by
  cases System.steps_of_step hstep with
  | tick now hnow =>
      refine ⟨h.opened, h.held, fun t c p ht hR => ?_⟩
      obtain ⟨began, hbegan, hdated⟩ := h.dated t c p ht hR
      refine ⟨began, le_trans hbegan hnow, ?_⟩
      cases hdated with
      | fresh next hnext hidle => exact .fresh next hnext hidle
      | begun p held hp hheld => exact .begun p held hp ⟨hheld.dated, hheld.certain⟩
  | start t c hfresh hmay =>
      refine ⟨(System.steps_of_step hstep).opened h.opened,
        fun k u v hv => List.mem_cons_of_mem t (h.held k u v hv), fun u d p hu hR => ?_⟩
      by_cases heq : u = t
      · subst heq
        rw [Pool.set_thread_self, Option.some.injEq, Thread.mk.injEq, Option.some.injEq] at hu
        obtain ⟨rfl, rfl⟩ := hu
        obtain ⟨next, hnext, hdates⟩ := hbody u c hR
        rw [hnext]
        exact ⟨s.mem.clock, le_refl _, .fresh next hdates fun k v hv => hfresh (h.held k u v hv)⟩
      · rw [Pool.set_thread_ne s c _ _ heq] at hu
        obtain ⟨now, hnow, hdated⟩ := h.dated u d p hu hR
        refine ⟨now, hnow, ?_⟩
        cases hdated with
        | fresh next hnext hidle => exact .fresh next hnext hidle
        | begun p held hp hheld => exact .begun p held hp ⟨hheld.dated, hheld.certain⟩
  | run t c st next r m ht he =>
      have hf := (exec_change he).frame hwf
      refine h.advance ht hf fun p hp hR => ?_
      obtain rfl := Option.some.inj hp
      obtain ⟨now, hnow, hdated⟩ := h.dated t c _ ht hR
      cases hdated with
      | fresh next hnext hidle =>
          simp only [exec, Option.some.injEq, Prod.mk.injEq] at he
          obtain ⟨rfl, rfl⟩ := he
          exact ⟨_, le_refl _, .begun _ _ (hnext _) (.of_idle hidle)⟩
      | begun p held hp hheld =>
          rw [← hf.clock] at hnow
          exact ⟨now, hnow, .begun _ _ (hp.2 r (hheld.finds hok he)) (hheld.exec hwf hok hp.1 he)⟩
  | skip t c st next r ht hr =>
      refine h.advance ht (.refl t s.mem) fun p hp hR => ?_
      obtain rfl := Option.some.inj hp
      obtain ⟨now, hnow, hdated⟩ := h.dated t c _ ht hR
      cases hdated with
      | fresh next hnext hidle => cases hr
      | begun p held hkeeps hheld =>
          cases st with
          | lock k cond =>
              obtain rfl := Option.some.inj hr
              have hnone : (Stmt.lock (T := T) k cond).Finds ok none := by
                intro w hw
                cases hw
              exact ⟨now, hnow, .begun _ _ (hkeeps.2 none hnone) (hheld.missed k (by simp))⟩
          | _ => cases hr
  | abort t c st next ht =>
      exact h.advance ht (.rollback t s.mem) fun p hp => by cases hp

theorem InDate.of_reaches {may : Pool K V T C α → Event T C → Pool K V T C α → Prop}
    {m : Store K V T} (hwf : m.WF) (hfree : ∀ k, (m.cell k).pending = none)
    (hbody : ∀ t c, R c → (sys.body t c).InDate (D c) ok)
    (hok : ∀ s k v, Reaches sys.step may (.init m) s → (s.mem.cell k).committed = some v → ok k v)
    (h : Reaches sys.step may (.init m) s) : InDate D ok R s := by
  refine h.invariant (.init hfree) fun s₁ ev s₂ hs₁ hdates hstep _ => ?_
  exact hdates.step (System.wf hwf hs₁) hbody (fun k v => hok s₁ k v hs₁) hstep

omit [DecidableEq K] [DecidableLE T] in
-- What a call has changed when it commits is as the dates say.
theorem InDate.commits (h : InDate D ok R s) {next : Unit → Prog K V T α} (hR : R c)
    (ht : s.thread t = some ⟨c, some (.op .commit next)⟩) :
    ∃ now ≤ s.mem.clock, ∀ k v, (s.mem.cell k).pending = some (t, v) →
      (s.mem.cell k).committed = some v ∨ D c now k (s.mem.cell k).committed v := by
  obtain ⟨now, hnow, hdated⟩ := h.dated t c _ ht hR
  cases hdated with
  | begun p held hp hheld => exact ⟨now, hnow, fun k v hv => (hheld.dated k v hv).2⟩

end Pool

end Txn
