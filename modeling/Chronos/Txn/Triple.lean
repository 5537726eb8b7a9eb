import Chronos.Txn.Logic

namespace Txn

variable {K : Type} {V : K → Type} {T : Type} {C : Type} {α β γ : Type}

section Stable

variable [LE T] {S : Spec K V T C α} {t : TxId}

theorem Interferes.cell_of_held {m m' : Store K V T} (h : Interferes S t m m') {k : K} {v : V k}
    (hp : (m.cell k).pending = some (t, v)) : m'.cell k = m.cell k := by
  obtain ⟨-, -, -, henv | ⟨c, s, hne, -, hf, -⟩⟩ := h
  · rw [henv.cell]
  · exact (hf.cells k).frame (Ne.symm hne) hp

theorem Interferes.held_iff {m m' : Store K V T} (h : Interferes S t m m') {k : K} {v : V k} :
    (m.cell k).pending = some (t, v) ↔ (m'.cell k).pending = some (t, v) := by
  obtain ⟨-, -, -, henv | ⟨c, s, hne, -, hf, -⟩⟩ := h
  · rw [henv.cell]
  · exact (hf.cells k).other (Ne.symm hne) v

-- What `t` knows about a row it has locked is not touched by anybody else.
theorem Stable.held (k : K) (D : Option (V k) → V k → Prop) :
    Stable S t fun m => ∀ v, (m.cell k).pending = some (t, v) → D (m.cell k).committed v := by
  intro m m' _ _ hi h v hv
  have hp := hi.held_iff.mpr hv
  rw [hi.cell_of_held hp]
  exact h v hp

theorem Stable.holds (k : K) (D : Option (V k) → V k → Prop) :
    Stable S t fun m => ∃ v, (m.cell k).pending = some (t, v) ∧ D (m.cell k).committed v := by
  intro m m' _ _ hi ⟨v, hp, hD⟩
  refine ⟨v, hi.held_iff.mp hp, ?_⟩
  rw [hi.cell_of_held hp]
  exact hD

theorem Stable.exists {ι : Sort*} {P : ι → Store K V T → Prop} (h : ∀ i, Stable S t (P i)) :
    Stable S t fun m => ∃ i, P i m :=
  fun m m' hwf hinv hi ⟨i, hp⟩ => ⟨i, h i m m' hwf hinv hi hp⟩

end Stable

section Triple

variable [LE T] [DecidableEq K] {S : Spec K V T C α} {c : C} {t : TxId}

-- A Hoare triple for a program of call `c` run as `t`, with the rest of the pool interfering.
def Triple (S : Spec K V T C α) (c : C) (t : TxId) (P : Store K V T → Prop) (p : Prog K V T β)
    (Q : β → Store K V T → Prop) : Prop :=
  ∀ m, m.WF → S.inv m → S.assume m → t ∈ m.opened → P m → Safe S c t p Q m

omit [DecidableEq K] in
theorem Rely.frame {m m' : Store K V T} (hr : Rely S t m m') (hwf : m.WF) (hinv : S.inv m)
    (ha : S.assume m) (ho : t ∈ m.opened) : m'.WF ∧ S.inv m' ∧ S.assume m' ∧ t ∈ m'.opened := by
  induction hr with
  | refl => exact ⟨hwf, hinv, ha, ho⟩
  | tail _ hi ih =>
      refine ⟨hi.1, hi.2.1, hi.2.2.1, ?_⟩
      obtain ⟨-, -, -, henv | ⟨c, s, -, -, hf, -⟩⟩ := hi
      · exact henv.opened t ih.2.2.2
      · exact hf.opened ▸ ih.2.2.2

theorem Safe.bind_triple (hsound : S.Sound) {p : Prog K V T β} {f : β → Prog K V T γ}
    {R : β → Store K V T → Prop} {Q : γ → Store K V T → Prop} {m : Store K V T}
    (hwf : m.WF) (hinv : S.inv m) (ha : S.assume m) (ho : t ∈ m.opened)
    (hp : Safe S c t p R m) (hf : ∀ a, Triple S c t (R a) (f a) Q) :
    Safe S c t (p.bind f) Q m := by
  induction p generalizing m with
  | pure a => exact hf a m hwf hinv ha ho (hp m .refl)
  | op st next ih =>
      intro m' hr hwf' hinv' ha'
      have ho' := (Rely.frame hr hwf hinv ha ho).2.2.2
      obtain ⟨hrun, hskip⟩ := hp m' hr hwf' hinv' ha'
      refine ⟨fun r m'' he hperm => ?_, fun r hs => ih r hwf' hinv' ha' ho' (hskip r hs)⟩
      obtain ⟨hg, hnext⟩ := hrun r m'' he hperm
      have hc := exec_change he
      have hfr := hc.frame hwf'
      refine ⟨hg, fun ha'' => ih r (hc.wf hwf') ?_ ha'' (hfr.opened ▸ ho') (hnext ha'')⟩
      exact hsound c t m' m'' hwf' (hc.wf hwf') hinv' ha' ho' hfr hg ha''

namespace Triple

variable {P P' : Store K V T → Prop} {p : Prog K V T β}

theorem bind (hsound : S.Sound) {f : β → Prog K V T γ} {R : β → Store K V T → Prop}
    {Q : γ → Store K V T → Prop} (hp : Triple S c t P p R)
    (hf : ∀ a, Triple S c t (R a) (f a) Q) : Triple S c t P (p >>= f) Q :=
  fun m hwf hinv ha ho hP => .bind_triple hsound hwf hinv ha ho (hp m hwf hinv ha ho hP) hf

theorem pre {Q : β → Store K V T → Prop} (h : Triple S c t P' p Q)
    (hP : ∀ m, m.WF → S.inv m → S.assume m → t ∈ m.opened → P m → P' m) : Triple S c t P p Q :=
  fun m hwf hinv ha ho hp => h m hwf hinv ha ho (hP m hwf hinv ha ho hp)

theorem post {Q Q' : β → Store K V T → Prop} (h : Triple S c t P p Q)
    (hQ : ∀ a m, Q a m → Q' a m) : Triple S c t P p Q' :=
  fun m hwf hinv ha ho hp => (h m hwf hinv ha ho hp).mono hQ

-- A fact that the precondition contains may be used to choose the proof.
theorem assuming {φ : Prop} {Q : β → Store K V T → Prop} (hφ : ∀ m, P m → φ)
    (h : φ → Triple S c t P p Q) : Triple S c t P p Q :=
  fun m hwf hinv ha ho hp => h (hφ m hp) m hwf hinv ha ho hp

theorem exists_pre {ι : Sort*} {P : ι → Store K V T → Prop} {Q : β → Store K V T → Prop}
    (h : ∀ i, Triple S c t (P i) p Q) : Triple S c t (fun m => ∃ i, P i m) p Q :=
  fun m hwf hinv ha ho ⟨i, hp⟩ => h i m hwf hinv ha ho hp

theorem pure (hst : Stable S t P) {a : β} {Q : β → Store K V T → Prop}
    (hQ : ∀ m, P m → Q a m) : Triple S c t P (Pure.pure a) Q :=
  fun _ hwf hinv _ _ hP => .pure hst hwf hinv hP hQ

theorem stmt {st : Stmt K V T β} {R : β → Store K V T → Prop} (hst : Stable S t P)
    (hstR : ∀ r, Stable S t (R r))
    (hrun : ∀ m r m', m.WF → S.inv m → S.assume m → t ∈ m.opened → P m →
      exec t st m = some (r, m') → S.permits c t st m → S.guar c t m m' ∧ R r m')
    (hskip : ∀ m r, m.WF → S.inv m → S.assume m → t ∈ m.opened → P m → st.skipped = some r →
      R r m)
    (hsound : S.Sound) : Triple S c t P (Txn.stmt st) R := by
  intro m hwf hinv ha ho hP m' hr hwf' hinv' ha'
  have hP' := hst.rely hwf hinv hr hP
  have ho' := (Rely.frame hr hwf hinv ha ho).2.2.2
  refine ⟨fun r m'' he hperm => ?_, fun r hs => ?_⟩
  · obtain ⟨hg, hR⟩ := hrun m' r m'' hwf' hinv' ha' ho' hP' he hperm
    have hc := exec_change he
    have hfr := hc.frame hwf'
    refine ⟨hg, fun ha'' => ?_⟩
    exact .pure (hstR r) (hc.wf hwf') (hsound c t m' m'' hwf' (hc.wf hwf') hinv' ha' ho' hfr hg ha'') hR
      fun _ h => h
  · exact .pure (hstR r) hwf' hinv' (hskip m' r hwf' hinv' ha' ho' hP' hs) fun _ h => h

end Triple

end Triple

end Txn
