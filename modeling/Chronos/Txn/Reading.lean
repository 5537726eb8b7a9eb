import Chronos.Txn.Shape

namespace Txn

variable {K : Type} {V : K → Type} {T C : Type} {α : Type} {s s' : Pool K V T C α} {R : C → Prop}

-- Calls that only read hold no row.
structure Reading (R : C → Prop) (s : Pool K V T C α) : Prop where
  opened : ∀ t, s.thread t ≠ none → t ∈ s.mem.opened
  held : ∀ k t v, (s.mem.cell k).pending = some (t, v) → t ∈ s.mem.opened
  idle : ∀ t c, s.calls t c → R c → s.mem.Idle t
  reads : ∀ t c p, s.thread t = some ⟨c, some p⟩ → R c → p.All Stmt.Reads

theorem Reading.init {m : Store K V T} (hfree : ∀ k, (m.cell k).pending = none) :
    Reading R (Pool.init m : Pool K V T C α) where
  opened t ht := absurd rfl ht
  held k t v hv := by simp [Pool.init, hfree] at hv
  idle t c hc := by
    obtain ⟨rest, ht⟩ := hc
    cases ht
  reads t c p ht := by cases ht

-- A call moves on, or is cut off.
theorem Reading.advance (h : Reading R s) {t : TxId} {c : C} {rest₀ rest : Option (Prog K V T α)}
    {m : Store K V T} (ht : s.thread t = some ⟨c, rest₀⟩) (hf : Frame t s.mem m)
    (hidle : R c → m.Idle t) (hrest : ∀ p, rest = some p → R c → p.All Stmt.Reads) :
    Reading R (s.set t c rest m) where
  opened u hu := by
    rw [Pool.set_mem, hf.opened]
    apply h.opened
    intro hnone
    by_cases heq : u = t
    · rw [heq, ht] at hnone
      cases hnone
    · exact hu (by rw [Pool.set_thread_ne s c rest m heq, hnone])
  held k u v hv := by
    rw [Pool.set_mem] at hv
    rw [Pool.set_mem, hf.opened]
    by_cases heq : u = t
    · exact heq ▸ h.opened t (by simp [ht])
    · exact h.held k u v (((hf.cells k).other heq v).mpr hv)
  idle u d hd hR k v hv := by
    obtain ⟨rest', hu⟩ := hd
    by_cases heq : u = t
    · subst heq
      rw [Pool.set_thread_self, Option.some.injEq, Thread.mk.injEq] at hu
      obtain ⟨rfl, -⟩ := hu
      exact hidle hR k v hv
    · rw [Pool.set_thread_ne s c rest m heq] at hu
      exact h.idle u d ⟨rest', hu⟩ hR k v (((hf.cells k).other heq v).mpr hv)
  reads u d p hu hR := by
    by_cases heq : u = t
    · subst heq
      rw [Pool.set_thread_self, Option.some.injEq, Thread.mk.injEq] at hu
      obtain ⟨rfl, rfl⟩ := hu
      exact hrest p rfl hR
    · rw [Pool.set_thread_ne s c rest m heq] at hu
      exact h.reads u d p hu hR

-- What a reading call sees is committed.
theorem Reading.view (h : Reading R s) {t : TxId} {c : C} (hc : s.calls t c) (hR : R c) :
    (s.mem.view t).row = fun k => (s.mem.cell k).committed :=
  funext fun k => Cell.seen_of_unheld (h.idle t c hc hR k)

variable [DecidableEq K] [LE T] [DecidableLE T] {sys : System K V T C α}

theorem Reading.step {ev : Event T C} (h : Reading R s) (hwf : s.mem.WF)
    (hbody : ∀ t c, R c → (sys.body t c).All Stmt.Reads) (hstep : sys.step s ev = some s') :
    Reading R s' := by
  cases System.steps_of_step hstep with
  | tick now hnow => exact ⟨h.opened, h.held, h.idle, h.reads⟩
  | start t c hfresh hmay =>
      have hnone : s.thread t = none := by
        by_contra hne
        exact hfresh (h.opened t hne)
      refine ⟨fun u hu => ?_, fun k u v hv => List.mem_cons_of_mem t (h.held k u v hv),
        fun u d hd hR k v hv => ?_, fun u d p hu hR => ?_⟩
      · by_cases heq : u = t
        · exact heq ▸ List.mem_cons_self
        · rw [Pool.set_thread_ne s c _ _ heq] at hu
          exact List.mem_cons_of_mem t (h.opened u hu)
      · by_cases heq : u = t
        · exact hfresh (heq ▸ h.held k u v hv)
        · obtain ⟨rest, hu⟩ := hd
          rw [Pool.set_thread_ne s c _ _ heq] at hu
          exact h.idle u d ⟨rest, hu⟩ hR k v hv
      · by_cases heq : u = t
        · subst heq
          rw [Pool.set_thread_self, Option.some.injEq, Thread.mk.injEq, Option.some.injEq] at hu
          obtain ⟨rfl, rfl⟩ := hu
          exact hbody u c hR
        · rw [Pool.set_thread_ne s c _ _ heq] at hu
          exact h.reads u d p hu hR
  | run t c st next r m ht he =>
      refine h.advance ht ((exec_change he).frame hwf) (fun hR => ?_) fun p hp hR => ?_
      · have hidle := h.idle t c ⟨_, ht⟩ hR
        obtain ⟨r', hr'⟩ := exec_reads (h.reads t c _ ht hR).1 hidle
        rw [hr', Option.some.injEq, Prod.mk.injEq] at he
        exact he.2 ▸ hidle
      · exact Option.some.inj hp ▸ (h.reads t c _ ht hR).2 r
  | skip t c st next r ht hr =>
      refine h.advance ht (.refl t s.mem) (h.idle t c ⟨_, ht⟩) fun p hp hR => ?_
      exact Option.some.inj hp ▸ (h.reads t c _ ht hR).2 r
  | abort t c st next ht =>
      exact h.advance ht (.rollback t s.mem) (fun _ => s.mem.rollback_not_held t) fun p hp => by
        cases hp

theorem Reading.of_reaches {ok : Pool K V T C α → Event T C → Pool K V T C α → Prop}
    {m : Store K V T} (hwf : m.WF) (hfree : ∀ k, (m.cell k).pending = none)
    (hbody : ∀ t c, R c → (sys.body t c).All Stmt.Reads) (h : Reaches sys.step ok (.init m) s) :
    Reading R s := by
  refine h.invariant (.init hfree) fun s₁ ev s₂ hs₁ hreading hstep _ => ?_
  exact hreading.step (System.wf hwf hs₁) hbody hstep

end Txn
