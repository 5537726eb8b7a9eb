import Chronos.Txn.Traces
import Chronos.Txn.Shape
import Mathlib.Data.List.Sigma

namespace Txn

variable {K : Type} {V : K → Type} {T : Type} {α β : Type} [DecidableEq K]

namespace View

def insert (k : K) (row : V k) (v : View K V) : View K V :=
  ⟨v.keys ++ [k], Function.update v.row k (some row)⟩

-- The version of a row replaced.
def put (k : K) (row : V k) (v : View K V) : View K V :=
  ⟨v.keys, Function.update v.row k (some row)⟩

def clashes (clash : ∀ k, V k → Bool) (v : View K V) : Bool :=
  v.keys.any fun k => (v.row k).any (clash k)

@[simp] theorem insert_row_self (k : K) (row : V k) (v : View K V) :
    (v.insert k row).row k = some row := by
  simp [insert]

theorem insert_row_ne {k k' : K} (row : V k) (v : View K V) (h : k' ≠ k) :
    (v.insert k row).row k' = v.row k' := by
  simp [insert, h]

@[simp] theorem put_row_self (k : K) (row : V k) (v : View K V) :
    (v.put k row).row k = some row := by
  simp [put]

theorem put_row_ne {k k' : K} (row : V k) (v : View K V) (h : k' ≠ k) :
    (v.put k row).row k' = v.row k' := by
  simp [put, h]

theorem put_eq_self {k : K} {row : V k} {v : View K V} (h : v.row k = some row) :
    v.put k row = v := by
  obtain ⟨keys, rows⟩ := v
  simp only [put, View.mk.injEq, true_and]
  exact Function.update_eq_self_iff.mpr h.symm

@[simp] theorem mem_insert_keys {k k' : K} (row : V k) (v : View K V) :
    k' ∈ (v.insert k row).keys ↔ k' ∈ v.keys ∨ k' = k := by
  simp [insert]

end View

variable {t : TxId} {m m' : Store K V T}

-- No other transaction holds a row.
def Store.Alone (t : TxId) (m : Store K V T) : Prop :=
  ∀ k s v, (m.cell k).pending = some (s, v) → s = t

omit [DecidableEq K] in
theorem Store.Alone.freeFor (h : m.Alone t) (k : K) : (m.cell k).freeFor t = true :=
  Cell.freeFor_iff.mpr fun s v hp => h k s v hp

omit [DecidableEq K] in
theorem Store.Alone.seen_of_pending (h : m.Alone t) {k : K} {p : TxId × V k}
    (hp : (m.cell k).pending = some p) : (m.cell k).seen t = some p.2 := by
  obtain ⟨s, v⟩ := p
  obtain rfl := h k s v hp
  exact Cell.seen_of_held hp

theorem view_own (k : K) (row : V k) : (m.own t k row).view t = (m.view t).put k row := by
  unfold Store.view View.put
  congr 1
  funext k'
  by_cases hk : k' = k
  · subst hk
    simp [Cell.seen]
  · rw [Store.own_cell_ne t k row m hk, Function.update_of_ne hk]

theorem view_insert (k : K) (row : V k) :
    (m.insert t k row).view t = (m.view t).insert k row := by
  have h := view_own (m := m) (t := t) k row
  simp only [Store.view, View.put, View.mk.injEq] at h
  simp only [Store.view, View.insert, View.mk.injEq]
  exact ⟨rfl, h.2⟩

theorem Store.Alone.own (h : m.Alone t) (k : K) (row : V k) : (m.own t k row).Alone t := by
  intro k' s v hp
  by_cases hk : k' = k
  · subst hk
    rw [Store.own_cell_self, Option.some.injEq, Prod.mk.injEq] at hp
    exact hp.1.symm
  · rw [Store.own_cell_ne t k row m hk] at hp
    exact h k' s v hp

-- What a transaction that is alone sees, and when.
structure Sees (t : TxId) (v : View K V) (now : T) (m : Store K V T) : Prop where
  wf : m.WF
  alone : m.Alone t
  view : m.view t = v
  clock : m.clock = now

-- What a transaction sees among others that stand still, and the rows they leave it.
structure Among (t : TxId) (free : K → Bool) (v : View K V) (now : T) (m : Store K V T) : Prop where
  wf : m.WF
  free : ∀ k, (m.cell k).freeFor t = free k
  view : m.view t = v
  clock : m.clock = now

-- A store nobody is working on.
structure Settled (v : View K V) (now : T) (m : Store K V T) : Prop where
  wf : m.WF
  unlocked : ∀ k, (m.cell k).pending = none
  keys : m.keys = v.keys
  committed : ∀ k, (m.cell k).committed = v.row k
  clock : m.clock = now

variable {v : View K V} {now : T} {k : K}

omit [DecidableEq K] in
theorem Settled.sees (h : Settled v now m) (t : TxId) : Sees t v now m where
  wf := h.wf
  alone k s w hp := by simp [h.unlocked k] at hp
  view := by
    obtain ⟨keys, row⟩ := v
    simp only [Store.view, View.mk.injEq]
    exact ⟨h.keys, funext fun k => (Cell.seen_of_free (h.unlocked k)).trans (h.committed k)⟩
  clock := h.clock

omit [DecidableEq K] in
theorem Settled.openTx (h : Settled v now m) (t : TxId) : Settled v now (m.openTx t) :=
  ⟨⟨h.wf.nodup, h.wf.absent⟩, h.unlocked, h.keys, h.committed, h.clock⟩

omit [DecidableEq K] in
theorem Settled.rollback_eq (h : Settled v now m) (t : TxId) : m.rollback t = m :=
  Store.rollback_eq_self fun k w hp => by simp [h.unlocked k] at hp

namespace Sees

omit [DecidableEq K] in
theorem mem_keys (h : Sees t v now m) {row : V k} (hrow : v.row k = some row) : k ∈ v.keys := by
  obtain ⟨hwf, -, rfl, -⟩ := h
  exact hwf.mem_of_seen (t := t) fun hnone => by
    rw [show (m.view t).row k = (m.cell k).seen t from rfl, hnone] at hrow
    cases hrow

theorem insert (h : Sees t v now m) (row : V k) (hk : k ∉ v.keys) :
    Sees t (v.insert k row) now (m.insert t k row) := by
  obtain ⟨hwf, halone, rfl, hclock⟩ := h
  exact ⟨hwf.insert row hk, halone.own k row, view_insert k row, hclock⟩

theorem own (h : Sees t v now m) {row : V k} (row' : V k) (hrow : v.row k = some row) :
    Sees t (v.put k row') now (m.own t k row') := by
  have hk := h.mem_keys hrow
  obtain ⟨hwf, halone, rfl, hclock⟩ := h
  exact ⟨hwf.own row' hk, halone.own k row', view_own k row', hclock⟩

-- A row that is locked as it is.
theorem keep (h : Sees t v now m) {row : V k} (hrow : v.row k = some row) :
    Sees t v now (m.own t k row) := by
  have hown := h.own row hrow
  rwa [View.put_eq_self hrow] at hown

-- Alone, a row is locked, and found if it satisfies the condition.
theorem exec_lock (h : Sees t v now m) {row : V k} (hrow : v.row k = some row) (cond : V k → Bool) :
    exec t (.lock k cond) m = some (if cond row then some row else none, m.own t k row) := by
  obtain ⟨hwf, halone, rfl, hclock⟩ := h
  have hseen : (m.cell k).seen t = some row := hrow
  simp only [exec, hseen, halone.freeFor k, if_true]

theorem exec_update (h : Sees t v now m) {row : V k} (hrow : v.row k = some row)
    (cond : V k → Bool) (set : V k → V k) :
    exec t (.update k cond set) m =
      if cond row then some (some (set row), m.own t k (set row)) else some (none, m) := by
  obtain ⟨hwf, halone, rfl, hclock⟩ := h
  have hseen : (m.cell k).seen t = some row := hrow
  simp only [exec, hseen, halone.freeFor k, if_true]

theorem exec_recheck (h : Sees t v now m) {row : V k} (hrow : v.row k = some row)
    (cond : V k → Bool) (set : V k → V k) :
    exec t (.recheck k cond set) m =
      if cond row then some (some (set row), m.own t k (set row))
      else some (none, m.own t k row) := by
  obtain ⟨hwf, halone, rfl, hclock⟩ := h
  have hseen : (m.cell k).seen t = some row := hrow
  simp only [exec, hseen, halone.freeFor k, if_true]

omit [DecidableEq K] in
theorem commit (h : Sees t v now m) : Settled v now (m.commit t) := by
  obtain ⟨hwf, halone, rfl, hclock⟩ := h
  refine ⟨hwf.commit, fun k => ?_, rfl, fun k => ?_, hclock⟩
  · by_cases hheld : ∃ w, (m.cell k).pending = some (t, w)
    · obtain ⟨w, hw⟩ := hheld
      rw [Store.commit_cell_held hw]
    · rw [not_exists] at hheld
      rw [Store.commit_cell_other hheld]
      cases hp : (m.cell k).pending with
      | none => rfl
      | some p =>
          obtain rfl := halone k p.1 p.2 hp
          exact absurd hp (hheld p.2)
  · exact m.commit_seen t k

-- Alone, an insert neither waits nor fails but for a clash that can be seen.
theorem exec_insert (h : Sees t v now m) (row : V k) (clash : ∀ k, V k → Bool) (hk : k ∉ v.keys) :
    exec t (.insert k row clash) m =
      if v.clashes clash then some (false, m) else some (true, m.insert t k row) := by
  obtain ⟨hwf, halone, rfl, hclock⟩ := h
  have hclash : insertClashes t clash m = (m.view t).clashes clash := rfl
  have hk' : k ∉ m.keys := hk
  simp only [exec, hk', if_false, hclash]
  split
  · rfl
  · rename_i hnot
    have hwaits : insertWaits clash m = false := by
      rw [Bool.eq_false_iff]
      intro hw
      obtain ⟨k', hk', hany⟩ := List.any_eq_true.mp hw
      obtain ⟨p, hp, hc⟩ := (Option.any_eq_true _ _).mp hany
      refine hnot (List.any_eq_true.mpr ⟨k', hk', (Option.any_eq_true _ _).mpr ⟨p.2, ?_, hc⟩⟩)
      exact halone.seen_of_pending hp
    simp [hwaits]

end Sees

section Among

variable {free : K → Bool}

omit [DecidableEq K] in
theorem Among.of_wf (hwf : m.WF) (t : TxId) :
    Among t (fun k => (m.cell k).freeFor t) (m.view t) m.clock m :=
  ⟨hwf, fun _ => rfl, rfl, rfl⟩

omit [DecidableEq K] in
-- Alone is among nobody.
theorem sees_iff_among : Sees t v now m ↔ Among t (fun _ => true) v now m := by
  constructor
  · rintro ⟨hwf, halone, hview, hclock⟩
    exact ⟨hwf, halone.freeFor, hview, hclock⟩
  · rintro ⟨hwf, hfree, hview, hclock⟩
    exact ⟨hwf, fun k s w hp => Cell.freeFor_iff.mp (hfree k) s w hp, hview, hclock⟩

theorem freeFor_own (k' : K) (row : V k) (hfree : (m.cell k).freeFor t = true) :
    ((m.own t k row).cell k').freeFor t = (m.cell k').freeFor t := by
  by_cases hk : k' = k
  · subst hk
    rw [hfree, Store.own_cell_self, Cell.freeFor_iff]
    intro s w hp
    exact (Prod.mk.inj (Option.some.inj hp)).1.symm
  · rw [Store.own_cell_ne t k row m hk]

namespace Among

omit [DecidableEq K] in
theorem mem_keys (h : Among t free v now m) {row : V k} (hrow : v.row k = some row) :
    k ∈ v.keys := by
  obtain ⟨hwf, -, rfl, -⟩ := h
  exact hwf.mem_of_seen (t := t) fun hnone => by
    rw [show (m.view t).row k = (m.cell k).seen t from rfl, hnone] at hrow
    cases hrow

theorem own (h : Among t free v now m) {row : V k} (row' : V k) (hrow : v.row k = some row)
    (hfree : free k = true) : Among t free (v.put k row') now (m.own t k row') := by
  have hk := h.mem_keys hrow
  obtain ⟨hwf, hcells, rfl, hclock⟩ := h
  refine ⟨hwf.own row' hk, fun k' => ?_, view_own k row', hclock⟩
  rw [freeFor_own k' row' ((hcells k).trans hfree), hcells]

theorem keep (h : Among t free v now m) {row : V k} (hrow : v.row k = some row)
    (hfree : free k = true) : Among t free v now (m.own t k row) := by
  have hown := h.own row hrow hfree
  rwa [View.put_eq_self hrow] at hown

-- A row that another transaction holds is passed over.
theorem exec_lock (h : Among t free v now m) {row : V k} (hrow : v.row k = some row)
    (cond : V k → Bool) : exec t (.lock k cond) m =
      some (if free k then (if cond row then some row else none, m.own t k row) else (none, m)) := by
  obtain ⟨hwf, hcells, rfl, hclock⟩ := h
  have hseen : (m.cell k).seen t = some row := hrow
  simp only [exec, hseen, hcells k]
  split
  · rfl
  · rfl

end Among

end Among

-- Total correctness of a program that runs with no other transaction in between.
def Runs (t : TxId) (P : Store K V T → Prop) (p : Prog K V T α) (Q : α → Store K V T → Prop) :
    Prop :=
  ∀ m, P m → ∃ a m', p.run t m = some (a, m') ∧ Q a m'

namespace Runs

variable {P P' : Store K V T → Prop} {p : Prog K V T α} {Q Q' : α → Store K V T → Prop}

theorem pure {a : α} (h : ∀ m, P m → Q a m) : Runs t P (Pure.pure a) Q :=
  fun m hP => ⟨a, m, rfl, h m hP⟩

theorem stmt {st : Stmt K V T α} (h : ∀ m, P m → ∃ a m', exec t st m = some (a, m') ∧ Q a m') :
    Runs t P (Txn.stmt st) Q := by
  intro m hP
  rw [Prog.run_stmt]
  exact h m hP

theorem bind {f : α → Prog K V T β} {R : β → Store K V T → Prop} (hp : Runs t P p Q)
    (hf : ∀ a, Runs t (Q a) (f a) R) : Runs t P (p >>= f) R := by
  intro m hP
  obtain ⟨a, m₁, hfirst, hQ⟩ := hp m hP
  obtain ⟨b, m₂, hrest, hR⟩ := hf a m₁ hQ
  exact ⟨b, m₂, by rw [Prog.bind_eq, Prog.run_bind, hfirst]; exact hrest, hR⟩

theorem pre (h : Runs t P' p Q) (hP : ∀ m, P m → P' m) : Runs t P p Q :=
  fun m hp => h m (hP m hp)

theorem via (S : Store K V T → Prop) (h : Runs t S p Q) (hP : ∀ m, P m → S m) : Runs t P p Q :=
  h.pre hP

theorem post (h : Runs t P p Q) (hQ : ∀ a m, Q a m → Q' a m) : Runs t P p Q' := by
  intro m hP
  obtain ⟨a, m', hrun, hq⟩ := h m hP
  exact ⟨a, m', hrun, hQ a m' hq⟩

theorem given {φ : Prop} (h : φ → Runs t P p Q) : Runs t (fun m => φ ∧ P m) p Q :=
  fun m hp => h hp.1 m hp.2

theorem assuming {φ : Prop} (hφ : ∀ m, P m → φ) (h : φ → Runs t P p Q) : Runs t P p Q :=
  fun m hp => h (hφ m hp) m hp

theorem «exists» {γ : Type*} {P : γ → Store K V T → Prop} (h : ∀ x, Runs t (P x) p Q) :
    Runs t (fun m => ∃ x, P x m) p Q :=
  fun m ⟨x, hp⟩ => h x m hp

theorem solo (h : Runs t P p Q) : Solo t P p Q := by
  intro m a m' hP hrun
  obtain ⟨b, m₁, hrun', hQ⟩ := h m hP
  rw [hrun] at hrun'
  obtain ⟨rfl, rfl⟩ := Prod.mk.inj (Option.some.inj hrun')
  exact hQ

theorem select (query : View K V → β) : Runs t (Sees t v now) (Txn.stmt (.select query))
    fun r m => r = query v ∧ Sees t v now m :=
  .stmt fun m h => ⟨query v, m, by simp only [exec, h.view], rfl, h⟩

theorem select_among {free : K → Bool} (query : View K V → β) :
    Runs t (Among t free v now) (Txn.stmt (.select query))
      fun r m => r = query v ∧ Among t free v now m :=
  .stmt fun m h => ⟨query v, m, by simp only [exec, h.view], rfl, h⟩

theorem update {row : V k} {cond : V k → Bool} (hrow : v.row k = some row) (hcond : cond row = true)
    (set : V k → V k) : Runs t (Sees t v now) (Txn.stmt (.update k cond set)) fun r m =>
      r = some (set row) ∧ Sees t (v.put k (set row)) now m := by
  refine .stmt fun m h => ⟨_, _, ?_, rfl, h.own (set row) hrow⟩
  rw [h.exec_update hrow, if_pos hcond]

theorem recheck {row : V k} {cond : V k → Bool} (hrow : v.row k = some row)
    (hcond : cond row = true) (set : V k → V k) :
    Runs t (Sees t v now) (Txn.stmt (.recheck k cond set)) fun r m =>
      r = some (set row) ∧ Sees t (v.put k (set row)) now m := by
  refine .stmt fun m h => ⟨_, _, ?_, rfl, h.own (set row) hrow⟩
  rw [h.exec_recheck hrow, if_pos hcond]

theorem begin : Runs t (Sees t v now) (Txn.stmt .begin) fun r m => r = now ∧ Sees t v now m :=
  .stmt fun m h => ⟨now, m, by simp only [exec, h.clock], rfl, h⟩

theorem commit : Runs t (Sees t v now) (Txn.stmt .commit) fun _ m => Settled v now m :=
  .stmt fun m h => ⟨(), m.commit t, rfl, h.commit⟩

theorem rollback : Runs t (Settled v now) (Txn.stmt .rollback) fun _ m => Settled v now m :=
  .stmt fun m h => ⟨(), m.rollback t, rfl, (h.rollback_eq t).symm ▸ h⟩

theorem begin_settled : Runs t (Settled v now) (Txn.stmt .begin) fun r m =>
    r = now ∧ Settled v now m :=
  .stmt fun m h => ⟨now, m, by simp only [exec, h.clock], rfl, h⟩

theorem insert (row : V k) (clash : ∀ k, V k → Bool) (hk : k ∉ v.keys) :
    Runs t (Sees t v now) (Txn.stmt (.insert k row clash)) fun r m =>
      (r = true ∧ v.clashes clash = false ∧ Sees t (v.insert k row) now m) ∨
        (r = false ∧ v.clashes clash = true ∧ Sees t v now m) := by
  refine .stmt fun m h => ?_
  rw [h.exec_insert row clash hk]
  cases hc : v.clashes clash with
  | true => exact ⟨false, m, rfl, .inr ⟨rfl, rfl, h⟩⟩
  | false => exact ⟨true, m.insert t k row, rfl, .inl ⟨rfl, rfl, h.insert row hk⟩⟩

end Runs

section Quiet

def Stmt.Quiet (st : Stmt K V T β) : Prop := st.commits = false

variable {p : Prog K V T α}

-- Up to its commit a transaction leaves what is committed as it was.
theorem run_quiet (h : p.All Stmt.Quiet) {a : α} (hrun : p.run t m = some (a, m')) (k : K) :
    (m'.cell k).committed = (m.cell k).committed := by
  induction p generalizing m with
  | pure b =>
      obtain ⟨rfl, rfl⟩ := Prod.mk.inj (Option.some.inj hrun)
      rfl
  | op st next ih =>
      rw [Prog.run] at hrun
      split at hrun
      · rename_i r m₁ hexec
        exact (ih r (h.2 r) hrun).trans (exec_quiet hexec h.1 k)
      · cases hrun

-- A transaction that is alone and has committed nothing yet.
structure Drafts (t : TxId) (v₀ v : View K V) (now : T) (m : Store K V T) : Prop where
  sees : Sees t v now m
  committed : ∀ k, (m.cell k).committed = v₀.row k

variable {v₀ : View K V}

omit [DecidableEq K] in
theorem Stmt.Reads.quiet {st : Stmt K V T β} (h : st.Reads) : st.Quiet := by
  cases h <;> rfl

omit [DecidableEq K] in
theorem Settled.drafts (h : Settled v now m) (t : TxId) : Drafts t v v now m where
  sees := h.sees t
  committed := h.committed

omit [DecidableEq K] in
-- Rolled back, it leaves nothing.
theorem Drafts.rollback_cell (h : Drafts t v₀ v now m) (k : K) :
    (m.rollback t).cell k = ⟨v₀.row k, none⟩ := by
  cases hp : (m.cell k).pending with
  | none =>
      rw [Store.rollback_cell_other fun w hw => by simp [hp] at hw]
      have hcommitted := h.committed k
      cases hcell : m.cell k
      simp_all
  | some p =>
      obtain ⟨s, w⟩ := p
      obtain rfl := h.sees.alone k s w hp
      rw [Store.rollback_cell_held hp, h.committed]

theorem Runs.drafts {Q : α → Store K V T → Prop} (v₀ : View K V) (h : Runs t (Sees t v now) p Q)
    (hp : p.All Stmt.Quiet) : Runs t (Drafts t v₀ v now) p fun a m =>
      Q a m ∧ ∀ k, (m.cell k).committed = v₀.row k := by
  intro m hm
  obtain ⟨a, m', hrun, hq⟩ := h m hm.sees
  exact ⟨a, m', hrun, hq, fun k => (run_quiet hp hrun k).trans (hm.committed k)⟩

end Quiet

section Pools

variable {C : Type} [LE T] [DecidableLE T] {s : Pool K V T C α} {c : C}

-- What a call does alone it can do in a pool, with the others standing still.
theorem Reaches.of_run (sys : System K V T C α) {p : Prog K V T α} {a : α}
    (ht : s.thread t = some ⟨c, some p⟩) (hrun : p.run t s.mem = some (a, m')) :
    Reaches sys.step (fun _ ev _ => ev = .run t) s (s.set t c (some (.pure a)) m') := by
  induction p generalizing s with
  | pure b =>
      obtain ⟨rfl, rfl⟩ := Prod.mk.inj (Option.some.inj hrun)
      have hsame : s.set t c (some (.pure b)) s.mem = s := by
        obtain ⟨mem, thread⟩ := s
        simp only [Pool.set, Pool.mk.injEq, true_and]
        exact Function.update_eq_self_iff.mpr ht.symm
      rw [hsame]
      exact .refl
  | op st next ih =>
      rw [Prog.run] at hrun
      split at hrun
      · rename_i r m₁ hexec
        have hstep : sys.step s (.run t) = some (s.set t c (some (next r)) m₁) := by
          simp only [System.step, ht, hexec]
        have hrest := ih r (Pool.set_thread_self s t c (some (next r)) m₁) hrun
        have hset : (s.set t c (some (next r)) m₁).set t c (some (.pure a)) m' =
            s.set t c (some (.pure a)) m' := by
          simp [Pool.set]
        exact .trans (.tail .refl hstep rfl) (hset ▸ hrest)
      · cases hrun

theorem Reaches.of_call (sys : System K V T C α) (c : C) {a : α} (hfresh : t ∉ s.mem.opened)
    (hmay : sys.may s c = true) (hrun : (sys.body t c).run t (s.mem.openTx t) = some (a, m')) :
    Reaches sys.step (fun _ _ _ => True) s (s.set t c (some (.pure a)) m') := by
  have hstart : sys.step s (.start t c) =
      some (s.set t c (some (sys.body t c)) (s.mem.openTx t)) := by
    simp [System.step, hfresh, hmay]
  have hrest := Reaches.of_run sys (Pool.set_thread_self s t c (some (sys.body t c)) _) hrun
  have hset : (s.set t c (some (sys.body t c)) (s.mem.openTx t)).set t c (some (.pure a)) m' =
      s.set t c (some (.pure a)) m' := by
    simp [Pool.set]
  exact .trans (.tail .refl hstart trivial) (hset ▸ hrest.mono fun _ _ _ _ => trivial)

end Pools

section Seed

-- A store that holds the given rows.
def Store.seed (rows : List (Sigma V)) (now : T) : Store K V T :=
  ⟨rows.keys, fun k => ⟨rows.dlookup k, none⟩, now, []⟩

def View.seed (rows : List (Sigma V)) : View K V := ⟨rows.keys, fun k => rows.dlookup k⟩

theorem Settled.seed {rows : List (Sigma V)} (h : rows.keys.Nodup) (now : T) :
    Settled (View.seed rows) now (Store.seed rows now) where
  wf := ⟨h, fun k hk => by
    have hnone : rows.dlookup k = none := List.dlookup_eq_none.mpr hk
    simp only [Store.seed, hnone]
    rfl⟩
  unlocked _ := rfl
  keys := rfl
  committed _ := rfl
  clock := rfl

end Seed

end Txn
