import Chronos.Txn.Triple

namespace Txn

variable {K : Type} {V : K → Type} {T : Type} {α β γ : Type} [DecidableEq K]
variable {t : TxId} {m m' : Store K V T}

namespace Prog

theorem run_bind (p : Prog K V T α) (f : α → Prog K V T β) (m : Store K V T) :
    (p.bind f).run t m = (p.run t m).bind fun r => (f r.1).run t r.2 := by
  induction p generalizing m with
  | pure a => rfl
  | op st next ih =>
      simp only [op_bind, run]
      cases exec t st m with
      | none => rfl
      | some r => exact ih r.1 r.2

theorem run_stmt (st : Stmt K V T β) (m : Store K V T) : (stmt st).run t m = exec t st m := by
  simp only [stmt, run]
  cases exec t st m with
  | none => rfl
  | some r => rfl

end Prog

-- Partial correctness of a program that runs with no other transaction in between.
def Solo (t : TxId) (P : Store K V T → Prop) (p : Prog K V T α) (Q : α → Store K V T → Prop) :
    Prop :=
  ∀ m a m', P m → p.run t m = some (a, m') → Q a m'

namespace Solo

variable {P P' : Store K V T → Prop} {p : Prog K V T α} {Q Q' : α → Store K V T → Prop}

theorem pure {a : α} (h : ∀ m, P m → Q a m) : Solo t P (Pure.pure a) Q := by
  intro m b m' hP hrun
  obtain ⟨rfl, rfl⟩ := Prod.mk.inj (Option.some.inj hrun)
  exact h m hP

theorem stmt {st : Stmt K V T α} (h : ∀ m a m', P m → exec t st m = some (a, m') → Q a m') :
    Solo t P (Txn.stmt st) Q := by
  intro m a m' hP hrun
  rw [Prog.run_stmt] at hrun
  exact h m a m' hP hrun

theorem bind {f : α → Prog K V T β} {R : β → Store K V T → Prop} (hp : Solo t P p Q)
    (hf : ∀ a, Solo t (Q a) (f a) R) : Solo t P (p >>= f) R := by
  intro m b m' hP hrun
  rw [Prog.bind_eq, Prog.run_bind, Option.bind_eq_some_iff] at hrun
  obtain ⟨⟨a, m₁⟩, hfirst, hrest⟩ := hrun
  exact hf a m₁ b m' (hp m a m₁ hP hfirst) hrest

theorem pre (h : Solo t P' p Q) (hP : ∀ m, P m → P' m) : Solo t P p Q :=
  fun m a m' hp hrun => h m a m' (hP m hp) hrun

-- A fact that the precondition contains may be used to choose the proof.
theorem given {φ : Prop} (h : φ → Solo t P p Q) : Solo t (fun m => φ ∧ P m) p Q :=
  fun m a m' hp hrun => h hp.1 m a m' hp.2 hrun

theorem post (h : Solo t P p Q) (hQ : ∀ a m, Q a m → Q' a m) : Solo t P p Q' :=
  fun m a m' hp hrun => hQ a m' (h m a m' hp hrun)

end Solo

end Txn
