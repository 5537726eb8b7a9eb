import Chronos.Txn.Solo
import Chronos.Txn.Rows

namespace Txn

variable {K : Type} {V : K → Type} {T : Type} {α β γ : Type}

-- Every statement that the program can come to satisfies `P`.
def Prog.All (P : ∀ {β : Type}, Stmt K V T β → Prop) : Prog K V T α → Prop
  | .pure _ => True
  | .op st next => P st ∧ ∀ r, (next r).All P

namespace Prog.All

variable {P : ∀ {β : Type}, Stmt K V T β → Prop}

theorem pure (a : α) : (Pure.pure a : Prog K V T α).All P := trivial

theorem stmt {st : Stmt K V T α} (h : P st) : (Txn.stmt st).All P := ⟨h, fun _ => trivial⟩

theorem bind {p : Prog K V T α} {f : α → Prog K V T β} (hp : p.All P) (hf : ∀ a, (f a).All P) :
    (p >>= f).All P := by
  induction p with
  | pure a => exact hf a
  | op st next ih => exact ⟨hp.1, fun r => ih r (hp.2 r)⟩

theorem mono {P' : ∀ {β : Type}, Stmt K V T β → Prop} {p : Prog K V T α}
    (h : p.All P) (hP : ∀ {β : Type} (st : Stmt K V T β), P st → P' st) : p.All P' := by
  induction p with
  | pure a => trivial
  | op st next ih => exact ⟨hP st h.1, fun r => ih r (h.2 r)⟩

end Prog.All

-- Statements that take no lock and write nothing.
inductive Stmt.Reads : {β : Type} → Stmt K V T β → Prop
  | begin : Reads .begin
  | select {β : Type} (query : View K V → β) : Reads (.select query)
  | rollback : Reads .rollback

-- Reading is within any rules.
theorem Prog.All.within {C : Type} {R : Rules K V C} {t : TxId} {c : C} {p : Prog K V T α}
    (h : p.All Stmt.Reads) {held : Locks K} : p.Within R t c (fun _ _ => True) held := by
  induction p generalizing held with
  | pure a => trivial
  | op st next ih =>
      refine ⟨?_, fun r _ => ih r (h.2 r)⟩
      cases h.1 <;> trivial

-- The transaction has locked no row.
def Store.Idle (t : TxId) (m : Store K V T) : Prop := ∀ k v, (m.cell k).pending ≠ some (t, v)

variable [DecidableEq K] {t : TxId} {m : Store K V T}

theorem exec_reads {st : Stmt K V T β} (h : st.Reads) (hidle : m.Idle t) :
    ∃ r, exec t st m = some (r, m) := by
  cases h with
  | begin => exact ⟨m.clock, rfl⟩
  | select query => exact ⟨query (m.view t), rfl⟩
  | rollback => exact ⟨(), congrArg (fun m' => some ((), m')) (Store.rollback_eq_self hidle)⟩

-- A program that only reads comes to its end, and leaves the store as it is.
theorem Prog.All.run_reads {p : Prog K V T α} (h : p.All Stmt.Reads) (hidle : m.Idle t) :
    ∃ a, p.run t m = some (a, m) := by
  induction p with
  | pure a => exact ⟨a, rfl⟩
  | op st next ih =>
      obtain ⟨r, hr⟩ := exec_reads h.1 hidle
      obtain ⟨a, ha⟩ := ih r (h.2 r)
      exact ⟨a, by rw [Prog.run, hr]; exact ha⟩

end Txn
