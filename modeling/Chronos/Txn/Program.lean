import Chronos.Txn.Store

namespace Txn

variable {K : Type} {V : K → Type} {T : Type} {α β γ : Type}

-- The statements a transaction is made of, with the type of what each returns.
-- `lock` is one row of SELECT … FOR UPDATE SKIP LOCKED, `recheck` one row of an UPDATE of all rows
-- that a snapshot has found: both lock the newest version of the row, evaluate their WHERE clause
-- again on it, and keep the lock where it no longer holds. `update` is an UPDATE of one row by its
-- key, with the snapshot it runs on. `write` is an UPDATE of a row whose lock is already held, and
-- the result of `insert` says whether the unique index took it.
inductive Stmt (K : Type) (V : K → Type) (T : Type) : Type → Type 1
  | begin : Stmt K V T T
  | select {β : Type} (query : View K V → β) : Stmt K V T β
  | lock (k : K) (cond : V k → Bool) : Stmt K V T (Option (V k))
  | update (k : K) (cond : V k → Bool) (set : V k → V k) : Stmt K V T (Option (V k))
  | recheck (k : K) (cond : V k → Bool) (set : V k → V k) : Stmt K V T (Option (V k))
  | write (k : K) (set : V k → V k) : Stmt K V T (Option (V k))
  | insert (k : K) (row : V k) (clash : ∀ k', V k' → Bool) : Stmt K V T Bool
  | commit : Stmt K V T Unit
  | rollback : Stmt K V T Unit

-- SKIP LOCKED may pass over a row that no `Cell` shows as locked: foreign-key checks take
-- weaker row locks, which are not recorded. This is what the statement returns then.
def Stmt.skipped : Stmt K V T β → Option β
  | .lock _ _ => some none
  | _ => none

-- A transaction program: the next statement, and how to go on from its result.
inductive Prog (K : Type) (V : K → Type) (T : Type) (α : Type) : Type 1
  | pure (a : α) : Prog K V T α
  | op {β : Type} (st : Stmt K V T β) (next : β → Prog K V T α) : Prog K V T α

namespace Prog

def bind : Prog K V T α → (α → Prog K V T β) → Prog K V T β
  | .pure a, f => f a
  | .op st next, f => .op st fun r => (next r).bind f

instance : Monad (Prog K V T) where
  pure := .pure
  bind := .bind

@[simp] theorem bind_eq (p : Prog K V T α) (f : α → Prog K V T β) : p >>= f = p.bind f := rfl

@[simp] theorem pure_eq (a : α) : (Pure.pure a : Prog K V T α) = .pure a := rfl

@[simp] theorem pure_bind (a : α) (f : α → Prog K V T β) : (Prog.pure a).bind f = f a := rfl

@[simp] theorem op_bind {δ : Type} (st : Stmt K V T δ) (next : δ → Prog K V T α)
    (f : α → Prog K V T β) : (Prog.op st next).bind f = .op st fun r => (next r).bind f := rfl

theorem bind_assoc {δ : Type} (p : Prog K V T α) (f : α → Prog K V T β) (g : β → Prog K V T δ) :
    (p.bind f).bind g = p.bind fun a => (f a).bind g := by
  induction p with
  | pure a => rfl
  | op st next ih => exact congrArg (Prog.op st) (funext ih)

-- Whatever the program returns satisfies `P`.
def Yields (P : α → Prop) : Prog K V T α → Prop
  | .pure a => P a
  | .op _ next => ∀ r, (next r).Yields P

theorem Yields.bind {P : α → Prop} {Q : β → Prop} {p : Prog K V T α} {f : α → Prog K V T β}
    (hp : p.Yields P) (hf : ∀ a, P a → (f a).Yields Q) : (p.bind f).Yields Q := by
  induction p with
  | pure a => exact hf a hp
  | op st next ih => exact fun r => ih r (hp r)

theorem Yields.mono {P Q : α → Prop} {p : Prog K V T α} (hp : p.Yields P) (h : ∀ a, P a → Q a) :
    p.Yields Q := by
  induction p with
  | pure a => exact h a hp
  | op st next ih => exact fun r => ih r (hp r)

theorem yields_true (p : Prog K V T α) : p.Yields fun _ => True := by
  induction p with
  | pure a => trivial
  | op st next ih => exact ih

theorem yields_bind {P : β → Prop} {f : α → Prog K V T β} (h : ∀ a, (f a).Yields P)
    (p : Prog K V T α) : (p.bind f).Yields P := by
  induction p with
  | pure a => exact h a
  | op st next ih => exact ih

end Prog

-- One statement as a program of its own.
def stmt (st : Stmt K V T β) : Prog K V T β := .op st .pure

section Exec

variable [DecidableEq K]

def insertClashes (t : TxId) (clash : ∀ k, V k → Bool) (m : Store K V T) : Bool :=
  m.keys.any fun k => ((m.cell k).seen t).any (clash k)

-- Somebody else's uncommitted row would clash: the unique index makes the insert wait for him.
def insertWaits (clash : ∀ k, V k → Bool) (m : Store K V T) : Bool :=
  m.keys.any fun k => (m.cell k).pending.any fun p => clash k p.2

-- What `t` gets from a statement and what the statement does to the store. `none` means that
-- it cannot run now: it waits for a lock, or (insert) its key is not a fresh one.
def exec (t : TxId) : {β : Type} → Stmt K V T β → Store K V T → Option (β × Store K V T)
  | _, .begin, m => some (m.clock, m)
  | _, .select query, m => some (query (m.view t), m)
  | _, .lock k cond, m =>
      match (m.cell k).seen t with
      | some v =>
          if (m.cell k).freeFor t then some (if cond v then some v else none, m.own t k v)
          else some (none, m)
      | none => some (none, m)
  | _, .update k cond set, m =>
      match (m.cell k).seen t with
      | some v =>
          if cond v then
            if (m.cell k).freeFor t then some (some (set v), m.own t k (set v)) else none
          else some (none, m)
      | none => some (none, m)
  | _, .recheck k cond set, m =>
      match (m.cell k).seen t with
      | some v =>
          if (m.cell k).freeFor t then
            if cond v then some (some (set v), m.own t k (set v)) else some (none, m.own t k v)
          else none
      | none => some (none, m)
  | _, .write k set, m =>
      match (m.cell k).pending with
      | some (s, v) =>
          if s = t then some (some (set v), m.own t k (set v)) else some (none, m)
      | none => some (none, m)
  | _, .insert k row clash, m =>
      if k ∈ m.keys then none
      else if insertClashes t clash m then some (false, m)
      else if insertWaits clash m then none
      else some (true, m.insert t k row)
  | _, .commit, m => some ((), m.commit t)
  | _, .rollback, m => some ((), m.rollback t)

-- What a statement that executed has found.
section Results

variable {t : TxId} {m m' : Store K V T} {k : K}

theorem exec_lock {cond : V k → Bool} {r : Option (V k)}
    (h : exec t (.lock k cond) m = some (r, m')) :
    (r = none ∧ m' = m) ∨ ∃ v, (m.cell k).seen t = some v ∧ (m.cell k).freeFor t = true ∧
      m' = m.own t k v ∧ (cond v = false ∧ r = none ∨ cond v = true ∧ r = some v) := by
  simp only [exec] at h
  split at h
  · rename_i v hv
    split at h
    · rename_i hfree
      simp only [Option.some.injEq, Prod.mk.injEq] at h
      refine .inr ⟨v, hv, hfree, h.2.symm, ?_⟩
      by_cases hc : cond v = true
      · exact .inr ⟨hc, h.1 ▸ if_pos hc⟩
      · exact .inl ⟨Bool.not_eq_true _ ▸ hc, h.1 ▸ if_neg hc⟩
    · simp only [Option.some.injEq, Prod.mk.injEq] at h
      exact .inl ⟨h.1.symm, h.2.symm⟩
  · simp only [Option.some.injEq, Prod.mk.injEq] at h
    exact .inl ⟨h.1.symm, h.2.symm⟩

theorem exec_update {cond : V k → Bool} {set : V k → V k} {r : Option (V k)}
    (h : exec t (.update k cond set) m = some (r, m')) :
    (r = none ∧ m' = m ∧ ∀ v, (m.cell k).seen t = some v → cond v = false) ∨
      ∃ v, (m.cell k).seen t = some v ∧ cond v = true ∧ (m.cell k).freeFor t = true ∧
        r = some (set v) ∧ m' = m.own t k (set v) := by
  simp only [exec] at h
  split at h
  · rename_i v hv
    split at h
    · rename_i hc
      split at h
      · rename_i hfree
        simp only [Option.some.injEq, Prod.mk.injEq] at h
        exact .inr ⟨v, hv, hc, hfree, h.1.symm, h.2.symm⟩
      · simp at h
    · rename_i hc
      simp only [Option.some.injEq, Prod.mk.injEq] at h
      refine .inl ⟨h.1.symm, h.2.symm, fun w hw => ?_⟩
      rw [hv, Option.some.injEq] at hw
      exact hw ▸ Bool.not_eq_true _ ▸ hc
  · rename_i hv
    simp only [Option.some.injEq, Prod.mk.injEq] at h
    exact .inl ⟨h.1.symm, h.2.symm, fun w hw => absurd hw (by simp [hv])⟩

theorem exec_recheck {cond : V k → Bool} {set : V k → V k} {r : Option (V k)}
    (h : exec t (.recheck k cond set) m = some (r, m')) :
    (r = none ∧ m' = m ∧ (m.cell k).seen t = none) ∨
      ∃ v, (m.cell k).seen t = some v ∧ (m.cell k).freeFor t = true ∧
        (cond v = false ∧ r = none ∧ m' = m.own t k v ∨
          cond v = true ∧ r = some (set v) ∧ m' = m.own t k (set v)) := by
  simp only [exec] at h
  split at h
  · rename_i v hv
    split at h
    · rename_i hfree
      split at h
      · rename_i hc
        simp only [Option.some.injEq, Prod.mk.injEq] at h
        exact .inr ⟨v, hv, hfree, .inr ⟨hc, h.1.symm, h.2.symm⟩⟩
      · rename_i hc
        simp only [Option.some.injEq, Prod.mk.injEq] at h
        exact .inr ⟨v, hv, hfree, .inl ⟨Bool.not_eq_true _ ▸ hc, h.1.symm, h.2.symm⟩⟩
    · simp at h
  · rename_i hv
    simp only [Option.some.injEq, Prod.mk.injEq] at h
    exact .inl ⟨h.1.symm, h.2.symm, hv⟩

theorem exec_write {set : V k → V k} {r : Option (V k)}
    (h : exec t (.write k set) m = some (r, m')) :
    (r = none ∧ m' = m ∧ ∀ v, (m.cell k).pending ≠ some (t, v)) ∨
      ∃ v, (m.cell k).pending = some (t, v) ∧ r = some (set v) ∧ m' = m.own t k (set v) := by
  simp only [exec] at h
  split at h
  · rename_i s v hp
    split at h
    · rename_i hs
      subst hs
      simp only [Option.some.injEq, Prod.mk.injEq] at h
      exact .inr ⟨v, hp, h.1.symm, h.2.symm⟩
    · rename_i hs
      simp only [Option.some.injEq, Prod.mk.injEq] at h
      refine .inl ⟨h.1.symm, h.2.symm, fun w hw => ?_⟩
      rw [hp, Option.some.injEq, Prod.mk.injEq] at hw
      exact hs hw.1
  · rename_i hp
    simp only [Option.some.injEq, Prod.mk.injEq] at h
    exact .inl ⟨h.1.symm, h.2.symm, fun w hw => by simp [hp] at hw⟩

theorem exec_insert {row : V k} {clash : ∀ k, V k → Bool} {r : Bool}
    (h : exec t (.insert k row clash) m = some (r, m')) :
    k ∉ m.keys ∧ ((r = false ∧ m' = m ∧ insertClashes t clash m = true) ∨
      (r = true ∧ m' = m.insert t k row ∧ insertClashes t clash m = false ∧
        insertWaits clash m = false)) := by
  simp only [exec] at h
  split at h
  · simp at h
  · rename_i hk
    refine ⟨hk, ?_⟩
    split at h
    · rename_i hc
      simp only [Option.some.injEq, Prod.mk.injEq] at h
      exact .inl ⟨h.1.symm, h.2.symm, hc⟩
    · rename_i hc
      split at h
      · simp at h
      · rename_i hw
        simp only [Option.some.injEq, Prod.mk.injEq] at h
        exact .inr ⟨h.1.symm, h.2.symm, Bool.not_eq_true _ ▸ hc, Bool.not_eq_true _ ▸ hw⟩

end Results

-- A program run to its end with no other transaction in between.
def Prog.run (t : TxId) : Prog K V T α → Store K V T → Option (α × Store K V T)
  | .pure a, m => some (a, m)
  | .op st next, m =>
      match exec t st m with
      | some (r, m') => (next r).run t m'
      | none => none

-- What any statement of `t` leaves of a store: each row makes one `Cell.Step`, and the locks of
-- `t` are given up all at once or not at all.
structure Frame (t : TxId) (m m' : Store K V T) : Prop where
  cells : ∀ k, Cell.Step t (m.cell k) (m'.cell k)
  keys : m'.keys = m.keys ∨ ∃ k, k ∉ m.keys ∧ m'.keys = m.keys ++ [k]
  clock : m'.clock = m.clock
  opened : m'.opened = m.opened
  whole : (∀ k v, (m'.cell k).pending ≠ some (t, v)) ∨
    ∀ k v, (m.cell k).pending = some (t, v) → ∃ v', (m'.cell k).pending = some (t, v')

omit [DecidableEq K] in
theorem Frame.refl (t : TxId) (m : Store K V T) : Frame t m m where
  cells _ := .keep _
  keys := .inl rfl
  clock := rfl
  opened := rfl
  whole := .inr fun _ v h => ⟨v, h⟩

omit [DecidableEq K] in
theorem Frame.commit (t : TxId) (m : Store K V T) : Frame t m (m.commit t) where
  cells k := Cell.publish_step t (m.cell k)
  keys := .inl rfl
  clock := rfl
  opened := rfl
  whole := .inl fun k v => m.commit_not_held t k v

omit [DecidableEq K] in
theorem Frame.rollback (t : TxId) (m : Store K V T) : Frame t m (m.rollback t) where
  cells k := Cell.release_step t (m.cell k)
  keys := .inl rfl
  clock := rfl
  opened := rfl
  whole := .inl fun k v => m.rollback_not_held t k v

theorem Frame.own {t : TxId} {m : Store K V T} {k : K} (v : V k)
    (hfree : (m.cell k).freeFor t = true) : Frame t m (m.own t k v) where
  cells k' := by
    by_cases h : k' = k
    · subst h
      simpa [Cell.own] using Cell.Step.own (m.cell k') v hfree
    · rw [Store.own_cell_ne t k v m h]
      exact .keep _
  keys := .inl rfl
  clock := rfl
  opened := rfl
  whole := .inr fun k' w hw => by
    by_cases h : k' = k
    · subst h
      exact ⟨v, by simp⟩
    · exact ⟨w, by rwa [Store.own_cell_ne t k v m h]⟩

theorem Frame.insert {t : TxId} {m : Store K V T} {k : K} (v : V k) (hwf : m.WF)
    (hk : k ∉ m.keys) : Frame t m (m.insert t k v) where
  cells := (Frame.own v (by simp [hwf.absent k hk, Cell.empty, Cell.freeFor])).cells
  keys := .inr ⟨k, hk, rfl⟩
  clock := rfl
  opened := rfl
  whole := (Frame.own (m := m) v (by simp [hwf.absent k hk, Cell.empty, Cell.freeFor])).whole

-- The ways a statement can change a store. Every fact about all statements goes through this.
inductive Change (t : TxId) (m : Store K V T) : Store K V T → Prop
  | keep : Change t m m
  | own (k : K) (v : V k) (hfree : (m.cell k).freeFor t = true) (hk : (m.cell k).seen t ≠ none) :
      Change t m (m.own t k v)
  | insert (k : K) (v : V k) (hk : k ∉ m.keys) : Change t m (m.insert t k v)
  | commit : Change t m (m.commit t)
  | rollback : Change t m (m.rollback t)

theorem exec_change {t : TxId} {st : Stmt K V T β} {m m' : Store K V T} {r : β}
    (h : exec t st m = some (r, m')) : Change t m m' := by
  cases st with
  | begin | select query =>
      simp only [exec, Option.some.injEq, Prod.mk.injEq] at h
      exact h.2 ▸ .keep
  | lock k cond =>
      rcases exec_lock h with ⟨-, rfl⟩ | ⟨v, hv, hfree, rfl, -⟩
      · exact .keep
      · exact .own k v hfree (by simp [hv])
  | update k cond set =>
      rcases exec_update h with ⟨-, rfl, -⟩ | ⟨v, hv, -, hfree, -, rfl⟩
      · exact .keep
      · exact .own k (set v) hfree (by simp [hv])
  | recheck k cond set =>
      rcases exec_recheck h with ⟨-, rfl, -⟩ | ⟨v, hv, hfree, ⟨-, -, rfl⟩ | ⟨-, -, rfl⟩⟩
      · exact .keep
      · exact .own k v hfree (by simp [hv])
      · exact .own k (set v) hfree (by simp [hv])
  | write k set =>
      rcases exec_write h with ⟨-, rfl, -⟩ | ⟨v, hp, -, rfl⟩
      · exact .keep
      · exact .own k (set v) (by simp [Cell.freeFor, hp]) (by simp [Cell.seen_of_held hp])
  | insert k row clash =>
      obtain ⟨hk, ⟨-, rfl, -⟩ | ⟨-, rfl, -⟩⟩ := exec_insert h
      · exact .keep
      · exact .insert k row hk
  | commit =>
      simp only [exec, Option.some.injEq, Prod.mk.injEq] at h
      exact h.2 ▸ .commit
  | rollback =>
      simp only [exec, Option.some.injEq, Prod.mk.injEq] at h
      exact h.2 ▸ .rollback

theorem Change.opened {t : TxId} {m m' : Store K V T} (h : Change t m m') :
    m'.opened = m.opened := by
  cases h <;> rfl

theorem Change.frame {t : TxId} {m m' : Store K V T} (h : Change t m m') (hwf : m.WF) :
    Frame t m m' := by
  cases h with
  | keep => exact .refl t m
  | own k v hfree hk => exact .own v hfree
  | insert k v hk => exact .insert v hwf hk
  | commit => exact .commit t m
  | rollback => exact .rollback t m

theorem Change.wf {t : TxId} {m m' : Store K V T} (h : Change t m m') (hwf : m.WF) : m'.WF := by
  cases h with
  | keep => exact hwf
  | own k v hfree hk => exact hwf.own v (hwf.mem_of_seen hk)
  | insert k v hk => exact hwf.insert v hk
  | commit => exact hwf.commit
  | rollback => exact hwf.rollback

end Exec

end Txn
