import Chronos.Txn.Pool

namespace Txn

variable {K : Type} {V : K → Type} {T C α β : Type}

-- What is known of the locks of a transaction: the rows it may hold, and those it does.
structure Locks (K : Type) where
  may : K → Prop
  must : K → Prop

namespace Locks

def none : Locks K := ⟨fun _ => False, fun _ => False⟩

def add (l : Locks K) (k : K) (got : Prop) : Locks K :=
  ⟨fun k' => l.may k' ∨ k' = k, fun k' => l.must k' ∨ got ∧ k' = k⟩

end Locks

-- What is laid down of a system row by row: what every version of a row satisfies, what a
-- transaction of a call may hold over the committed version, which row it may wait for while
-- it holds others, and which rows are there when the call is made.
structure Rules (K : Type) (V : K → Type) (C : Type) where
  ok : ∀ k, V k → Prop
  rel : TxId → C → ∀ k, Option (V k) → V k → Prop
  waits : TxId → C → Locks K → K → Prop
  present : C → K → Prop

namespace Stmt

def commits : Stmt K V T β → Bool
  | .commit => true
  | _ => false

def releases : Stmt K V T β → Bool
  | .rollback => true
  | _ => false

-- The rows that keep a statement waiting while they are somebody else's.
def needs : Stmt K V T β → ∀ k, V k → Prop
  | .update k _ _, k', _ => k' = k
  | .recheck k _ _, k', _ => k' = k
  | .insert _ _ clash, k', v => clash k' v = true
  | _, _, _ => False

-- The locks behind a statement that has returned `r`.
def after (held : Locks K) : Stmt K V T β → β → Locks K
  | .lock k _, r => held.add k (r.isSome = true)
  | .update k _ _, r => held.add k (r.isSome = true)
  | .recheck k _ _, r => held.add k (r.isSome = true)
  | .insert k _ _, r => held.add k (r = true)
  | .commit, _ => .none
  | .rollback, _ => .none
  | _, _ => held

variable (R : Rules K V C) (t : TxId) (c : C)

-- What the rules ask of a statement.
def Within (held : Locks K) : Stmt K V T β → Prop
  | .lock k _ => ∀ v, R.ok k v → R.rel t c k (some v) v
  | .update k cond set => R.waits t c held k ∧ ∀ base v, base = some v ∨ R.rel t c k base v →
      R.ok k v → cond v = true → R.ok k (set v) ∧ R.rel t c k base (set v)
  | .recheck k cond set => R.waits t c held k ∧ ∀ base v, base = some v ∨ R.rel t c k base v →
      R.ok k v → R.rel t c k base v ∧ (cond v = true → R.ok k (set v) ∧ R.rel t c k base (set v))
  | .write k set => ∀ base v, R.rel t c k base v → R.ok k v → R.ok k (set v) ∧ R.rel t c k base (set v)
  | .insert k row _ => R.ok k row ∧ R.rel t c k none row
  | _ => True

-- What a call learns from a statement.
def Result : Stmt K V T β → β → Prop
  | .select query, r => ∃ v : View K V, (∀ k row, v.row k = some row → R.ok k row) ∧ r = query v
  | .lock k cond, r => ∀ v, r = some v → R.ok k v ∧ cond v = true
  | .update k cond set, r => (∀ w, r = some w → ∃ v, R.ok k v ∧ cond v = true ∧ w = set v) ∧
      (r = none → R.present c k → ∃ v, cond v = false)
  | .recheck k cond set, r => ∀ w, r = some w → ∃ v, R.ok k v ∧ cond v = true ∧ w = set v
  | .write k set, r => ∀ w, r = some w → ∃ v, R.ok k v ∧ w = set v
  | _, _ => True

end Stmt

-- A program all of whose statements keep to the rules, whatever they return, and `Q` of what it
-- returns and holds in the end.
def Prog.Within (R : Rules K V C) (t : TxId) (c : C) (Q : α → Locks K → Prop) :
    Locks K → Prog K V T α → Prop
  | held, .pure a => Q a held
  | held, .op st next => st.Within R t c held ∧
      ∀ r, st.Result R c r → (next r).Within R t c Q (st.after held r)

namespace Prog

-- Nothing but the way out of the transaction is left.
def leaving : Prog K V T α → Bool
  | .pure _ => true
  | .op st _ => st.releases

def LeavesAfterCommit : Prog K V T α → Prop
  | .pure _ => True
  | .op st next => (st.commits = true ∨ st.releases = true → ∀ r, (next r).leaving = true) ∧
      ∀ r, (next r).LeavesAfterCommit

-- The row of the UPDATE a program stands before.
def updates : Prog K V T α → Option K
  | .op (.update k _ _) _ => some k
  | .op (.recheck k _ _) _ => some k
  | _ => none

variable {R : Rules K V C} {t : TxId} {c : C} {Q Q' : α → Locks K → Prop} {held : Locks K}

theorem Within.waits {p : Prog K V T α} {k : K} (hp : p.Within R t c Q held)
    (hk : p.updates = some k) : R.waits t c held k := by
  unfold updates at hk
  split at hk
  · exact Option.some.inj hk ▸ hp.1.1
  · exact Option.some.inj hk ▸ hp.1.1
  · cases hk

theorem Within.bind {p : Prog K V T α} {f : α → Prog K V T β} {S : β → Locks K → Prop}
    (hp : p.Within R t c Q held) (hf : ∀ a held', Q a held' → (f a).Within R t c S held') :
    (p >>= f).Within R t c S held := by
  rw [bind_eq]
  induction p generalizing held with
  | pure a => exact hf a held hp
  | op st next ih => exact ⟨hp.1, fun r hr => ih r (hp.2 r hr)⟩

theorem Within.mono {p : Prog K V T α} (hp : p.Within R t c Q held)
    (h : ∀ a held', Q a held' → Q' a held') : p.Within R t c Q' held := by
  induction p generalizing held with
  | pure a => exact h a held hp
  | op st next ih => exact ⟨hp.1, fun r hr => ih r (hp.2 r hr)⟩

theorem Within.pure {a : α} (h : Q a held) : (Pure.pure a : Prog K V T α).Within R t c Q held := h

-- A statement before the rest of a program.
theorem Within.stmt {st : Stmt K V T α} {f : α → Prog K V T β} {S : β → Locks K → Prop}
    (hst : st.Within R t c held) (hf : ∀ r, st.Result R c r → (f r).Within R t c S (st.after held r)) :
    (Txn.stmt st >>= f).Within R t c S held :=
  ⟨hst, hf⟩

theorem Within.last {st : Stmt K V T α} (hst : st.Within R t c held)
    (h : ∀ r, st.Result R c r → Q r (st.after held r)) : (Txn.stmt st).Within R t c Q held :=
  ⟨hst, h⟩

end Prog

-- Every version of a row keeps to the rules; `call` says which calls the transactions run.
structure RowsOk (R : Rules K V C) (call : TxId → C → Prop) (m : Store K V T) : Prop where
  committed : ∀ k v, (m.cell k).committed = some v → R.ok k v
  pending : ∀ k t v, (m.cell k).pending = some (t, v) →
    R.ok k v ∧ ∃ c, call t c ∧ R.rel t c k (m.cell k).committed v

section Versions

variable {R : Rules K V C} {call : TxId → C → Prop} {m m' : Store K V T}
  {t : TxId} {c : C} {held : Locks K}

theorem RowsOk.seen (h : RowsOk R call m) {k : K} {v : V k} (hv : (m.cell k).seen t = some v) :
    R.ok k v := by
  rcases Cell.seen_cases hv with hp | hc
  · exact (h.pending k t v hp).1
  · exact h.committed k v hc

theorem RowsOk.commit (h : RowsOk R call m) : RowsOk R call (m.commit t) where
  committed k v hv := by
    by_cases hheld : ∃ w, (m.cell k).pending = some (t, w)
    · obtain ⟨w, hw⟩ := hheld
      rw [Store.commit_cell_held hw, Option.some.injEq] at hv
      exact hv ▸ (h.pending k t w hw).1
    · simp only [not_exists] at hheld
      rw [Store.commit_cell_other hheld] at hv
      exact h.committed k v hv
  pending k s v hv := by
    have hcell : (m.commit t).cell k = m.cell k := by
      refine Store.commit_cell_other fun w hw => ?_
      rw [Store.commit_cell_held hw] at hv
      simp at hv
    rw [hcell] at hv ⊢
    exact h.pending k s v hv

theorem RowsOk.rollback (h : RowsOk R call m) : RowsOk R call (m.rollback t) where
  committed k v hv := by
    rw [Store.rollback_committed] at hv
    exact h.committed k v hv
  pending k s v hv := by
    have hcell : (m.rollback t).cell k = m.cell k := by
      refine Store.rollback_cell_other fun w hw => ?_
      rw [Store.rollback_cell_held hw] at hv
      simp at hv
    rw [hcell] at hv ⊢
    exact h.pending k s v hv

theorem RowsOk.mono_call {call' : TxId → C → Prop} (h : RowsOk R call m)
    (hcall : ∀ t c, call t c → call' t c) : RowsOk R call' m where
  committed := h.committed
  pending k t v hv := by
    obtain ⟨hok, c, hc, hrel⟩ := h.pending k t v hv
    exact ⟨hok, c, hcall t c hc, hrel⟩

-- The rows that `t` holds are as `held` says.
structure HeldWithin (t : TxId) (held : Locks K) (m : Store K V T) : Prop where
  may : ∀ k v, (m.cell k).pending = some (t, v) → held.may k
  must : ∀ k, held.must k → ∃ v, (m.cell k).pending = some (t, v)

-- A statement that did not get the lock.
theorem HeldWithin.missed (h : HeldWithin t held m) (k : K) {got : Prop} (hgot : ¬ got) :
    HeldWithin t (held.add k got) m where
  may k' v hv := .inl (h.may k' v hv)
  must k' hk := hk.elim (h.must k') fun hadd => absurd hadd.1 hgot

theorem seen_isSome (t : TxId) {k : K} (h : (m.cell k).committed.isSome = true) :
    ((m.cell k).seen t).isSome = true := by
  unfold Cell.seen
  split
  · split
    · rfl
    · exact h
  · exact h

-- Over what row a statement that has seen `v` and may change it works.
theorem RowsOk.base (h : RowsOk R call m) (hone : ∀ c', call t c' → c' = c) {k : K} {v : V k}
    (hv : (m.cell k).seen t = some v) :
    (m.cell k).committed = some v ∨ R.rel t c k (m.cell k).committed v := by
  rcases Cell.seen_cases hv with hp | hc
  · obtain ⟨-, c', hc', hrel⟩ := h.pending k t v hp
    exact .inr (hone c' hc' ▸ hrel)
  · exact .inl hc

theorem HeldWithin.of_none (h : ∀ k v, (m.cell k).pending ≠ some (t, v)) :
    HeldWithin t .none m where
  may k v hv := h k v hv
  must _ hk := hk.elim

end Versions

section Statements

variable [DecidableEq K] {R : Rules K V C} {call : TxId → C → Prop} {m m' : Store K V T}
  {t : TxId} {c : C} {held : Locks K}

theorem RowsOk.own (h : RowsOk R call m) {k : K} {v : V k} (hok : R.ok k v) (hcall : call t c)
    (hrel : R.rel t c k (m.cell k).committed v) : RowsOk R call (m.own t k v) where
  committed k' w hw := by
    rw [Store.own_committed] at hw
    exact h.committed k' w hw
  pending k' s w hw := by
    rw [Store.own_committed]
    by_cases hk : k' = k
    · subst hk
      rw [Store.own_cell_self, Option.some.injEq, Prod.mk.injEq] at hw
      obtain ⟨rfl, rfl⟩ := hw
      exact ⟨hok, c, hcall, hrel⟩
    · rw [Store.own_cell_ne t k v m hk] at hw
      exact h.pending k' s w hw

theorem HeldWithin.own (h : HeldWithin t held m) (k : K) (v : V k) (got : Prop) :
    HeldWithin t (held.add k got) (m.own t k v) where
  may k' w hw := by
    by_cases hk : k' = k
    · exact .inr hk
    · rw [Store.own_cell_ne t k v m hk] at hw
      exact .inl (h.may k' w hw)
  must k' hk' := by
    by_cases hk : k' = k
    · subst hk
      exact ⟨v, by rw [Store.own_cell_self]⟩
    · rw [Store.own_cell_ne t k v m hk]
      exact hk'.elim (h.must k') fun hadd => absurd hadd.2 hk

-- The row was held already.
theorem HeldWithin.rewrite (h : HeldWithin t held m) {k : K} {w : V k}
    (hw : (m.cell k).pending = some (t, w)) (v : V k) : HeldWithin t held (m.own t k v) where
  may k' u hu := by
    rcases (h.own k v False).may k' u hu with hmay | rfl
    · exact hmay
    · exact h.may k' w hw
  must k' hk' := (h.own k v False).must k' (.inl hk')

-- What `t` knows of the rows when it runs a statement: they keep to the rules, it holds what
-- `held` says, and it runs no other call.
structure Turn (R : Rules K V C) (call : TxId → C → Prop) (t : TxId) (c : C) (held : Locks K)
    (m : Store K V T) : Prop where
  wf : m.WF
  rows : RowsOk R call m
  held : HeldWithin t held m
  mine : call t c
  one : ∀ c', call t c' → c' = c
  present : ∀ k, R.present c k → (m.cell k).committed.isSome = true

-- What a statement within the rules does to the rows, and what its call holds behind it.
def Stmt.Outcome (R : Rules K V C) (call : TxId → C → Prop) (t : TxId) (c : C) (held : Locks K)
    (m' : Store K V T) (st : Stmt K V T β) (r : β) : Prop :=
  RowsOk R call m' ∧ HeldWithin t (st.after held r) m' ∧ st.Result R c r

section Kinds

variable {k : K} {cond : V k → Bool} {set : V k → V k} {r : Option (V k)}

theorem Turn.lock (hturn : Turn R call t c held m)
    (hst : (Stmt.lock k cond : Stmt K V T _).Within R t c held)
    (h : exec t (.lock k cond) m = some (r, m')) :
    Stmt.Outcome R call t c held m' (Stmt.lock k cond) r := by
  rcases exec_lock h with ⟨rfl, rfl⟩ | ⟨v, hv, -, rfl, hr⟩
  · exact ⟨hturn.rows, hturn.held.missed k (by simp), fun w hw => by simp at hw⟩
  · have hok := hturn.rows.seen hv
    have hrel : R.rel t c k (m.cell k).committed v := by
      rcases hturn.rows.base hturn.one hv with hbase | hrel
      · exact hbase ▸ hst v hok
      · exact hrel
    refine ⟨hturn.rows.own hok hturn.mine hrel, hturn.held.own k v _, fun w hw => ?_⟩
    rcases hr with ⟨-, rfl⟩ | ⟨hcond, rfl⟩
    · simp at hw
    · exact Option.some.inj hw ▸ ⟨hok, hcond⟩

theorem Turn.update (hturn : Turn R call t c held m)
    (hst : (Stmt.update k cond set : Stmt K V T _).Within R t c held)
    (h : exec t (.update k cond set) m = some (r, m')) :
    Stmt.Outcome R call t c held m' (Stmt.update k cond set) r := by
  rcases exec_update h with ⟨rfl, rfl, hfails⟩ | ⟨v, hv, hcond, -, rfl, rfl⟩
  · refine ⟨hturn.rows, hturn.held.missed k (by simp), fun w hw => by simp at hw, fun _ hk => ?_⟩
    obtain ⟨v, hv⟩ := Option.isSome_iff_exists.mp (seen_isSome t (hturn.present k hk))
    exact ⟨v, hfails v hv⟩
  · have hok := hturn.rows.seen hv
    obtain ⟨hok', hrel⟩ := hst.2 _ v (hturn.rows.base hturn.one hv) hok hcond
    refine ⟨hturn.rows.own hok' hturn.mine hrel, hturn.held.own k _ _, fun w hw => ?_, by simp⟩
    exact ⟨v, hok, hcond, (Option.some.inj hw).symm⟩

theorem Turn.recheck (hturn : Turn R call t c held m)
    (hst : (Stmt.recheck k cond set : Stmt K V T _).Within R t c held)
    (h : exec t (.recheck k cond set) m = some (r, m')) :
    Stmt.Outcome R call t c held m' (Stmt.recheck k cond set) r := by
  rcases exec_recheck h with ⟨rfl, rfl, -⟩ | ⟨v, hv, -, hr⟩
  · exact ⟨hturn.rows, hturn.held.missed k (by simp), fun w hw => by simp at hw⟩
  · have hok := hturn.rows.seen hv
    obtain ⟨hrel, hset⟩ := hst.2 _ v (hturn.rows.base hturn.one hv) hok
    rcases hr with ⟨-, rfl, rfl⟩ | ⟨hcond, rfl, rfl⟩
    · exact ⟨hturn.rows.own hok hturn.mine hrel, hturn.held.own k v _, fun w hw => by simp at hw⟩
    · obtain ⟨hok', hrel'⟩ := hset hcond
      refine ⟨hturn.rows.own hok' hturn.mine hrel', hturn.held.own k _ _, fun w hw => ?_⟩
      exact ⟨v, hok, hcond, (Option.some.inj hw).symm⟩

theorem Turn.write (hturn : Turn R call t c held m)
    (hst : (Stmt.write k set : Stmt K V T _).Within R t c held)
    (h : exec t (.write k set) m = some (r, m')) :
    Stmt.Outcome R call t c held m' (Stmt.write k set) r := by
  rcases exec_write h with ⟨rfl, rfl, -⟩ | ⟨v, hp, rfl, rfl⟩
  · exact ⟨hturn.rows, hturn.held, fun w hw => by simp at hw⟩
  · obtain ⟨hok, c', hc', hrel⟩ := hturn.rows.pending k t v hp
    obtain rfl := hturn.one c' hc'
    obtain ⟨hok', hrel'⟩ := hst _ v hrel hok
    exact ⟨hturn.rows.own hok' hturn.mine hrel', hturn.held.rewrite hp _,
      fun w hw => ⟨v, hok, (Option.some.inj hw).symm⟩⟩

theorem Turn.insert {row : V k} {clash : ∀ k, V k → Bool} {r : Bool}
    (hturn : Turn R call t c held m)
    (hst : (Stmt.insert k row clash : Stmt K V T _).Within R t c held)
    (h : exec t (.insert k row clash) m = some (r, m')) :
    Stmt.Outcome R call t c held m' (Stmt.insert k row clash) r := by
  obtain ⟨hk, ⟨rfl, rfl, -⟩ | ⟨rfl, rfl, -⟩⟩ := exec_insert h
  · exact ⟨hturn.rows, hturn.held.missed k (by simp), trivial⟩
  · have hnone : (m.cell k).committed = none := by rw [hturn.wf.absent k hk]; rfl
    have hown := hturn.rows.own (t := t) (v := row) hst.1 hturn.mine (hnone ▸ hst.2)
    have hlocks := hturn.held.own k row (true = true)
    exact ⟨⟨hown.committed, hown.pending⟩, ⟨hlocks.may, hlocks.must⟩, trivial⟩

end Kinds

theorem Turn.exec (hturn : Turn R call t c held m) {st : Stmt K V T β} {r : β}
    (hst : st.Within R t c held) (h : exec t st m = some (r, m')) :
    st.Outcome R call t c held m' r := by
  cases st with
  | begin =>
      simp only [Txn.exec, Option.some.injEq, Prod.mk.injEq] at h
      exact h.2 ▸ ⟨hturn.rows, hturn.held, trivial⟩
  | select query =>
      simp only [Txn.exec, Option.some.injEq, Prod.mk.injEq] at h
      exact h.2 ▸ ⟨hturn.rows, hturn.held, m.view t, fun k row hrow => hturn.rows.seen hrow, h.1.symm⟩
  | lock k cond => exact hturn.lock hst h
  | update k cond set => exact hturn.update hst h
  | recheck k cond set => exact hturn.recheck hst h
  | write k set => exact hturn.write hst h
  | insert k row clash => exact hturn.insert hst h
  | commit =>
      simp only [Txn.exec, Option.some.injEq, Prod.mk.injEq] at h
      obtain ⟨-, rfl⟩ := h
      exact ⟨hturn.rows.commit, .of_none (m.commit_not_held t), trivial⟩
  | rollback =>
      simp only [Txn.exec, Option.some.injEq, Prod.mk.injEq] at h
      obtain ⟨-, rfl⟩ := h
      exact ⟨hturn.rows.rollback, .of_none (m.rollback_not_held t), trivial⟩

-- A committed row stays, with its old content or a new one.
theorem Change.stays (h : Change t m m') {k : K} (hk : (m.cell k).committed.isSome = true) :
    (m'.cell k).committed.isSome = true := by
  cases h with
  | keep => exact hk
  | own k' v hfree hseen => rwa [Store.own_committed]
  | insert k' v hfresh => rwa [Store.insert_cell, Store.own_committed]
  | rollback => rwa [Store.rollback_committed]
  | commit =>
      by_cases hheld : ∃ v, (m.cell k).pending = some (t, v)
      · obtain ⟨v, hv⟩ := hheld
        rw [Store.commit_cell_held hv]
        rfl
      · simp only [not_exists] at hheld
        rwa [Store.commit_cell_other hheld]

-- Only a commit changes what is committed.
theorem exec_quiet {st : Stmt K V T β} {r : β} (h : exec t st m = some (r, m'))
    (hst : st.commits = false) (k : K) : (m'.cell k).committed = (m.cell k).committed := by
  cases st with
  | commit => simp [Stmt.commits] at hst
  | rollback =>
      simp only [exec, Option.some.injEq, Prod.mk.injEq] at h
      obtain ⟨-, rfl⟩ := h
      exact m.rollback_committed t k
  | begin | select query =>
      simp only [exec, Option.some.injEq, Prod.mk.injEq] at h
      rw [← h.2]
  | lock k' cond =>
      rcases exec_lock h with ⟨-, rfl⟩ | ⟨v, -, -, rfl, -⟩
      · rfl
      · exact Store.own_committed ..
  | update k' cond set =>
      rcases exec_update h with ⟨-, rfl, -⟩ | ⟨v, -, -, -, -, rfl⟩
      · rfl
      · exact Store.own_committed ..
  | recheck k' cond set =>
      rcases exec_recheck h with ⟨-, rfl, -⟩ | ⟨v, -, -, ⟨-, -, rfl⟩ | ⟨-, -, rfl⟩⟩
      · rfl
      · exact Store.own_committed ..
      · exact Store.own_committed ..
  | write k' set =>
      rcases exec_write h with ⟨-, rfl, -⟩ | ⟨v, -, -, rfl⟩
      · rfl
      · exact Store.own_committed ..
  | insert k' row clash =>
      obtain ⟨-, ⟨-, rfl, -⟩ | ⟨-, rfl, -⟩⟩ := exec_insert h
      · rfl
      · rw [Store.insert_cell, Store.own_committed]

omit [DecidableEq K] in
theorem commit_changes {k : K} (hne : ((m.commit t).cell k).committed ≠ (m.cell k).committed) :
    ∃ v, (m.cell k).pending = some (t, v) ∧ ((m.commit t).cell k).committed = some v := by
  by_cases hheld : ∃ v, (m.cell k).pending = some (t, v)
  · obtain ⟨v, hv⟩ := hheld
    exact ⟨v, hv, by rw [Store.commit_cell_held hv]⟩
  · simp only [not_exists] at hheld
    exact absurd (by rw [Store.commit_cell_other hheld]) hne

end Statements

section Pools

variable {R : Rules K V C} {s : Pool K V T C α} {t : TxId} {c : C}

def Pool.calls (s : Pool K V T C α) (t : TxId) (c : C) : Prop :=
  ∃ rest, s.thread t = some ⟨c, rest⟩

-- Every call in progress keeps to the rules in what is left of it, and every row version does.
structure Ruled (R : Rules K V C) (s : Pool K V T C α) : Prop where
  wf : s.mem.WF
  opened : ∀ t, s.thread t ≠ none → t ∈ s.mem.opened
  rows : RowsOk R s.calls s.mem
  present : ∀ t c k, s.calls t c → R.present c k → (s.mem.cell k).committed.isSome = true
  program : ∀ t c p, s.thread t = some ⟨c, some p⟩ →
    ∃ held, HeldWithin t held s.mem ∧ p.Within R t c (fun _ _ => True) held

theorem Pool.calls_unique {c' : C} {rest : Option (Prog K V T α)}
    (ht : s.thread t = some ⟨c, rest⟩) (h : s.calls t c') : c' = c := by
  obtain ⟨rest', ht'⟩ := h
  rw [ht] at ht'
  cases ht'
  rfl

theorem Pool.calls_set {m : Store K V T} {rest rest' : Option (Prog K V T α)}
    (ht : s.thread t = some ⟨c, rest⟩) {t' : TxId} {c' : C} (h : s.calls t' c') :
    (s.set t c rest' m).calls t' c' := by
  by_cases heq : t' = t
  · subst heq
    obtain rfl := Pool.calls_unique ht h
    exact ⟨rest', Pool.set_thread_self s t' c' rest' m⟩
  · obtain ⟨rest₁, ht'⟩ := h
    exact ⟨rest₁, by rw [Pool.set_thread_ne s c rest' m heq, ht']⟩

-- The rows of the others stay theirs.
theorem HeldWithin.other {held : Locks K} {m m' : Store K V T} (h : HeldWithin t held m)
    {s : TxId} (hne : t ≠ s) (hf : Frame s m m') : HeldWithin t held m' where
  may k v hv := h.may k v (((hf.cells k).other hne v).mpr hv)
  must k hk := by
    obtain ⟨v, hv⟩ := h.must k hk
    exact ⟨v, ((hf.cells k).other hne v).mp hv⟩

theorem Ruled.init {m : Store K V T} (hwf : m.WF)
    (hok : ∀ k v, (m.cell k).committed = some v → R.ok k v)
    (hfree : ∀ k, (m.cell k).pending = none) : Ruled R (Pool.init m : Pool K V T C α) where
  wf := hwf
  opened t ht := by simp [Pool.init] at ht
  rows := ⟨hok, fun k t v hv => by simp [Pool.init, hfree] at hv⟩
  present t c k hc := by
    obtain ⟨rest, ht⟩ := hc
    simp [Pool.init] at ht
  program t c p ht := by simp [Pool.init] at ht

-- A call moves on with `rest` left to run.
theorem Ruled.advance {m : Store K V T} {rest : Option (Prog K V T α)} (h : Ruled R s)
    {rest₀ : Option (Prog K V T α)} (ht : s.thread t = some ⟨c, rest₀⟩) (hwf : m.WF)
    (hopened : m.opened = s.mem.opened) (hrows : RowsOk R s.calls m)
    (hstays : ∀ k, (s.mem.cell k).committed.isSome = true → (m.cell k).committed.isSome = true)
    (hother : ∀ t' held, t' ≠ t → HeldWithin t' held s.mem → HeldWithin t' held m)
    (hrest : ∀ p, rest = some p →
      ∃ held, HeldWithin t held m ∧ p.Within R t c (fun _ _ => True) held) :
    Ruled R (s.set t c rest m) where
  wf := hwf
  opened t' ht' := by
    rw [Pool.set_mem, hopened]
    apply h.opened
    intro hnone
    by_cases heq : t' = t
    · rw [heq, ht] at hnone
      simp at hnone
    · exact ht' (by rw [Pool.set_thread_ne s c rest m heq, hnone])
  rows := hrows.mono_call fun t' c' hc => Pool.calls_set ht hc
  present t' c' k hc hk := by
    refine hstays k (h.present t' c' k ?_ hk)
    obtain ⟨rest', ht'⟩ := hc
    by_cases heq : t' = t
    · subst heq
      rw [Pool.set_thread_self, Option.some.injEq, Thread.mk.injEq] at ht'
      exact ht'.1 ▸ ⟨rest₀, ht⟩
    · rw [Pool.set_thread_ne s c rest m heq] at ht'
      exact ⟨rest', ht'⟩
  program t' c' p ht' := by
    by_cases heq : t' = t
    · subst heq
      rw [Pool.set_thread_self, Option.some.injEq, Thread.mk.injEq] at ht'
      obtain ⟨rfl, rfl⟩ := ht'
      exact hrest p rfl
    · rw [Pool.set_thread_ne s c rest m heq] at ht'
      obtain ⟨held, hheld, hp⟩ := h.program t' c' p ht'
      exact ⟨held, hother t' held heq hheld, hp⟩

end Pools

section Runs

variable [DecidableEq K] [LE T] [DecidableLE T] {R : Rules K V C} {sys : System K V T C α}
  {s s' : Pool K V T C α} {ev : Event T C} {t : TxId} {c : C}

-- What the rules ask of a call that is made.
structure Begins (R : Rules K V C) (sys : System K V T C α) (s : Pool K V T C α) (t : TxId) (c : C) :
    Prop where
  present : ∀ k, R.present c k → (s.mem.cell k).committed.isSome = true
  body : (sys.body t c).Within R t c (fun _ _ => True) .none

-- One step of one call among all the others.
theorem Ruled.step (h : Ruled R s)
    (hbegins : ∀ t c, ev = .start t c → sys.may s c = true → Begins R sys s t c)
    (hstep : sys.step s ev = some s') : Ruled R s' := by
  cases System.steps_of_step hstep with
  | tick now hnow =>
      exact ⟨⟨h.wf.nodup, h.wf.absent⟩, h.opened, ⟨h.rows.committed, h.rows.pending⟩, h.present,
        fun t c p ht => by
          obtain ⟨held, hheld, hp⟩ := h.program t c p ht
          exact ⟨held, ⟨hheld.may, hheld.must⟩, hp⟩⟩
  | start t c hfresh hmay =>
      have hnone : s.thread t = none := by
        by_contra hne
        exact hfresh (h.opened t hne)
      have hne : ∀ {t' : TxId} {c' : C} {rest : Option (Prog K V T α)},
          s.thread t' = some ⟨c', rest⟩ → t' ≠ t := by
        rintro t' c' rest ht' rfl
        rw [hnone] at ht'
        simp at ht'
      have hcalls : ∀ t' c', s.calls t' c' →
          (s.set t c (some (sys.body t c)) (s.mem.openTx t)).calls t' c' := by
        rintro t' c' ⟨rest, ht'⟩
        exact ⟨rest, by rw [Pool.set_thread_ne s c _ _ (hne ht'), ht']⟩
      refine ⟨⟨h.wf.nodup, h.wf.absent⟩, fun t' ht' => ?_, ⟨h.rows.committed, fun k t' v hv => ?_⟩,
        fun t' c' k hc' hk => ?_, fun t' c' p ht' => ?_⟩
      · by_cases heq : t' = t
        · exact heq ▸ List.mem_cons_self
        · rw [Pool.set_thread_ne s c _ _ heq] at ht'
          exact List.mem_cons_of_mem _ (h.opened t' ht')
      · obtain ⟨hok, c', hc', hrel⟩ := h.rows.pending k t' v hv
        exact ⟨hok, c', hcalls t' c' hc', hrel⟩
      · obtain ⟨rest, ht'⟩ := hc'
        by_cases heq : t' = t
        · subst heq
          rw [Pool.set_thread_self, Option.some.injEq, Thread.mk.injEq] at ht'
          exact (hbegins t' c rfl hmay).present k (ht'.1 ▸ hk)
        · rw [Pool.set_thread_ne s c _ _ heq] at ht'
          exact h.present t' c' k ⟨rest, ht'⟩ hk
      · by_cases heq : t' = t
        · subst heq
          rw [Pool.set_thread_self, Option.some.injEq, Thread.mk.injEq, Option.some.injEq] at ht'
          obtain ⟨rfl, rfl⟩ := ht'
          refine ⟨.none, .of_none fun k v hv => ?_, (hbegins t' c rfl hmay).body⟩
          obtain ⟨-, c', ⟨rest, ht''⟩, -⟩ := h.rows.pending k t' v hv
          exact hne ht'' rfl
        · rw [Pool.set_thread_ne s c _ _ heq] at ht'
          obtain ⟨held, hheld, hp⟩ := h.program t' c' p ht'
          exact ⟨held, ⟨hheld.may, hheld.must⟩, hp⟩
  | run t c st next r m ht he =>
      obtain ⟨held, hheld, hst, hnext⟩ := h.program t c _ ht
      have hframe := (exec_change he).frame h.wf
      have hturn : Turn R s.calls t c held s.mem :=
        ⟨h.wf, h.rows, hheld, ⟨_, ht⟩, fun c' hc' => Pool.calls_unique ht hc',
          fun k => h.present t c k ⟨_, ht⟩⟩
      obtain ⟨hrows, hheld', hres⟩ := hturn.exec hst he
      refine h.advance ht ((exec_change he).wf h.wf) hframe.opened hrows
        (fun k hk => (exec_change he).stays hk)
        (fun t' held' hne hh => hh.other hne hframe) fun p hp => ?_
      cases hp
      exact ⟨_, hheld', hnext r hres⟩
  | skip t c st next r ht hr =>
      obtain ⟨held, hheld, hst, hnext⟩ := h.program t c _ ht
      refine h.advance ht h.wf rfl h.rows (fun k hk => hk) (fun t' held' hne hh => hh) fun p hp => ?_
      cases hp
      cases st with
      | lock k cond =>
          simp only [Stmt.skipped, Option.some.injEq] at hr
          subst hr
          exact ⟨_, hheld.missed k (by simp), hnext none fun v hv => by simp at hv⟩
      | _ => simp [Stmt.skipped] at hr
  | abort t c st next ht =>
      exact h.advance ht h.wf.rollback rfl h.rows.rollback
        (fun k hk => by rwa [s.mem.rollback_committed t k])
        (fun t' held' hne hh => hh.other hne (.rollback t s.mem)) fun p hp => by simp at hp

-- A run in which every call that is made is one the rules allow for.
theorem Ruled.of_starts {ok : Pool K V T C α → Event T C → Pool K V T C α → Prop}
    {m : Store K V T} (hinit : Ruled R (Pool.init m : Pool K V T C α))
    (hbegins : ∀ s t c s', ok s (.start t c) s' → sys.may s c = true → Begins R sys s t c)
    (h : Reaches sys.step ok (Pool.init m) s) : Ruled R s :=
  h.invariant hinit fun s _ s' _ hs hstep hok => hs.step
    (fun t c hev hmay => hbegins s t c s' (hev ▸ hok) hmay) hstep

theorem Ruled.of_reaches {ok : Pool K V T C α → Event T C → Pool K V T C α → Prop}
    {m : Store K V T} (hinit : Ruled R (Pool.init m : Pool K V T C α))
    (hbegins : ∀ s t c, sys.may s c = true → Begins R sys s t c)
    (h : Reaches sys.step ok (Pool.init m) s) : Ruled R s :=
  .of_starts hinit (fun s t c _ _ => hbegins s t c) h

-- What holds of the programs of the calls and of whatever is left of a program it holds of.
theorem System.hereditary {P : C → Prog K V T α → Prop}
    (hbody : ∀ s t c, sys.may s c = true → P c (sys.body t c))
    (hnext : ∀ c {β : Type} (st : Stmt K V T β) next r, P c (.op st next) → P c (next r))
    {ok : Pool K V T C α → Event T C → Pool K V T C α → Prop} {m : Store K V T}
    (h : Reaches sys.step ok (Pool.init m) s) {p : Prog K V T α}
    (ht : s.thread t = some ⟨c, some p⟩) : P c p := by
  have hall := h.invariant (P := fun s => ∀ t c p, s.thread t = some ⟨c, some p⟩ → P c p)
    (fun t c p ht => by simp [Pool.init] at ht) fun s ev s' _ hold hstep _ t c p ht => ?_
  · exact hall t c p ht
  · cases (System.steps_of_step hstep).thread t with
    | same heq => exact hold t c p (heq ▸ ht)
    | started c' hev hfresh hmay hthread =>
        rw [hthread, Option.some.injEq, Thread.mk.injEq, Option.some.injEq] at ht
        obtain ⟨rfl, rfl⟩ := ht
        exact hbody s t c' hmay
    | advanced c' st next r hbefore hthread =>
        rw [hthread, Option.some.injEq, Thread.mk.injEq, Option.some.injEq] at ht
        obtain ⟨rfl, rfl⟩ := ht
        exact hnext c' st next r (hold t c' _ hbefore)
    | cutOff c' st next hev hbefore hthread => simp [hthread] at ht

-- A committed row changes when the commit of a call publishes the version its transaction holds.
theorem System.publication (h : sys.step s ev = some s') {k : K}
    (hne : (s'.mem.cell k).committed ≠ (s.mem.cell k).committed) :
    ∃ t c next v, ev = .run t ∧ s.thread t = some ⟨c, some (.op .commit next)⟩ ∧
      s'.mem = s.mem.commit t ∧ (s.mem.cell k).pending = some (t, v) ∧
      (s'.mem.cell k).committed = some v := by
  cases System.steps_of_step h with
  | tick now hnow => exact absurd rfl hne
  | start t c hfresh hmay => exact absurd rfl hne
  | skip t c st next r ht hr => exact absurd rfl hne
  | abort t c st next ht => exact absurd (s.mem.rollback_committed t k) hne
  | run t c st next r m ht he =>
      rw [Pool.set_mem] at hne ⊢
      have hcommits : st.commits = true := by
        by_contra hst
        exact hne (exec_quiet he (Bool.eq_false_iff.mpr hst) k)
      cases st with
      | commit =>
          simp only [exec, Option.some.injEq, Prod.mk.injEq] at he
          obtain ⟨-, rfl⟩ := he
          obtain ⟨v, hv, hcommitted⟩ := commit_changes hne
          exact ⟨t, c, next, v, rfl, ht, rfl, hv, hcommitted⟩
      | _ => simp [Stmt.commits] at hcommits

theorem System.stays (h : sys.step s ev = some s') {k : K}
    (hk : (s.mem.cell k).committed.isSome = true) : (s'.mem.cell k).committed.isSome = true := by
  by_cases hsame : (s'.mem.cell k).committed = (s.mem.cell k).committed
  · rwa [hsame]
  · obtain ⟨t, c, next, v, -, -, -, -, hv⟩ := System.publication h hsame
    rw [hv]
    rfl

theorem System.wf {ok : Pool K V T C α → Event T C → Pool K V T C α → Prop} {m : Store K V T}
    (hm : m.WF) (h : Reaches sys.step ok (Pool.init m) s) : s.mem.WF := by
  refine h.invariant (P := fun s => s.mem.WF) hm fun s ev s' _ hwf hstep _ => ?_
  cases System.steps_of_step hstep with
  | tick now hnow => exact ⟨hwf.nodup, hwf.absent⟩
  | start t c hfresh hmay => exact ⟨hwf.nodup, hwf.absent⟩
  | run t c st next r m ht he => exact (exec_change he).wf hwf
  | skip t c st next r ht hr => exact hwf
  | abort t c st next ht => exact hwf.rollback

-- A call under the rules publishes what they relate to the version before.
theorem Ruled.publication (hs : Ruled R s) (h : sys.step s ev = some s') {k : K}
    (hne : (s'.mem.cell k).committed ≠ (s.mem.cell k).committed) :
    ∃ t c next v, ev = .run t ∧ s.thread t = some ⟨c, some (.op .commit next)⟩ ∧
      s'.mem = s.mem.commit t ∧ (s.mem.cell k).pending = some (t, v) ∧
      (s'.mem.cell k).committed = some v ∧ R.ok k v ∧ R.rel t c k (s.mem.cell k).committed v := by
  obtain ⟨t, c, next, v, hev, ht, hmem, hp, hv⟩ := System.publication h hne
  obtain ⟨hok, c', hc', hrel⟩ := hs.rows.pending k t v hp
  obtain rfl := Pool.calls_unique ht hc'
  exact ⟨t, c', next, v, hev, ht, hmem, hp, hv, hok, hrel⟩

-- One transaction waits for another: with an UPDATE for the one that has its row locked, with an
-- INSERT for one whose new row would clash. `recheck` waits whatever the newest version of the row
-- is, and so may `update`, whose snapshot can be older than that version.
def WaitsFor (s : Pool K V T C α) (t u : TxId) : Prop :=
  ∃ (c : C) (β : Type) (st : Stmt K V T β) (next : β → Prog K V T α) (k : K) (v : V k),
    s.thread t = some ⟨c, some (.op st next)⟩ ∧ st.needs k v ∧
      (s.mem.cell k).pending = some (u, v) ∧ u ≠ t

omit [DecidableEq K] [LE T] [DecidableLE T] in
-- What a waiting call and the one it waits for have to do with the row.
theorem Ruled.waiting (h : Ruled R s) {p : Prog K V T α} {k : K} {u : TxId} {v : V k}
    (ht : s.thread t = some ⟨c, some p⟩) (hp : p.updates = some k)
    (hv : (s.mem.cell k).pending = some (u, v)) :
    ∃ held, HeldWithin t held s.mem ∧ R.waits t c held k ∧
      ∃ d, s.calls u d ∧ R.rel u d k (s.mem.cell k).committed v := by
  obtain ⟨-, d, hd, hrel⟩ := h.rows.pending k u v hv
  obtain ⟨held, hheld, hwithin⟩ := h.program t c p ht
  exact ⟨held, hheld, hwithin.waits hp, d, hd, hrel⟩

omit [DecidableEq K] [LE T] [DecidableLE T] in
theorem WaitsFor.held {u : TxId} (h : WaitsFor s t u) :
    ∃ k v, (s.mem.cell k).pending = some (u, v) := by
  obtain ⟨-, -, -, -, k, v, -, -, hv, -⟩ := h
  exact ⟨k, v, hv⟩

omit [DecidableEq K] [LE T] [DecidableLE T] in
theorem WaitsFor.thread {u : TxId} (h : WaitsFor s t u) : s.thread t ≠ none := by
  obtain ⟨c, β, st, next, k, v, ht, -⟩ := h
  simp [ht]

omit [DecidableEq K] [LE T] [DecidableLE T] in
-- Under rules that let nobody insert a row, it is an UPDATE that waits.
theorem Ruled.updates_of_waits (h : Ruled R s) (hrel : ∀ t c k v, ¬ R.rel t c k none v) {u : TxId}
    (hw : WaitsFor s t u) : ∃ c p k v, s.thread t = some ⟨c, some p⟩ ∧ p.updates = some k ∧
      (s.mem.cell k).pending = some (u, v) ∧ u ≠ t := by
  obtain ⟨c, β, st, next, k, v, ht, hneeds, hv, hne⟩ := hw
  cases st with
  | update k' cond set =>
      obtain rfl : k = k' := hneeds
      exact ⟨c, _, k, v, ht, rfl, hv, hne⟩
  | recheck k' cond set =>
      obtain rfl : k = k' := hneeds
      exact ⟨c, _, k, v, ht, rfl, hv, hne⟩
  | insert k' row clash =>
      obtain ⟨held, -, hwithin⟩ := h.program t c _ ht
      exact absurd hwithin.1.2 (hrel t c k' row)
  | _ => exact hneeds.elim

end Runs

end Txn
