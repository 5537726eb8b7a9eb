import Chronos.Services.Batch
import Chronos.Txn.Traces

namespace Chronos

open Txn (TxId Traced Steady Quiet Execs stmt exec_insert)
open JobService

section Rows

-- A row with its key.
abbrev KeyedRow := Σ k, Row k

-- The rows `t` holds.
def HoldsExactly (t : TxId) (rows : List KeyedRow) (m : Db) : Prop :=
  ∀ k v, m.mine t k = some v ↔ ⟨k, v⟩ ∈ rows

def jobRow (t : TxId) (job : Job) : KeyedRow :=
  ⟨.job job.id, { job := job, attempts := [], dependsOn := [], log := [.created t] }⟩

def queueRow (q : Queue) : KeyedRow := ⟨.queue q.id, q⟩

def isJobRow (row : KeyedRow) : Bool := row.1.jobId.isSome

-- The rows are those of the jobs, in their order, and of some queues.
structure BatchRows (t : TxId) (jobs : List Job) (rows : List KeyedRow) : Prop where
  jobs : rows.filter isJobRow = jobs.map (jobRow t)
  queues : ∀ row ∈ rows, isJobRow row = false → ∃ q, row = queueRow q

-- The step makes exactly these rows visible to everybody.
structure Publishes (rows : List KeyedRow) (m m' : Db) : Prop where
  published : ∀ k v, ⟨k, v⟩ ∈ rows → (m'.cell k).committed = some v
  others : ∀ k, (∀ v, ⟨k, v⟩ ∉ rows) → (m'.cell k).committed = (m.cell k).committed

variable {t : TxId} {rows : List KeyedRow} {m m' : Db}

theorem steady_holdsExactly : Steady t (HoldsExactly t rows) :=
  Steady.mine fun mine => ∀ k v, mine k = some v ↔ ⟨k, v⟩ ∈ rows

theorem publishes_commit (h : HoldsExactly t rows m) : Publishes rows m (m.commit t) where
  published k v hkv := by
    rw [Txn.commit_committed, (h k v).mpr hkv, Option.some_or]
  others k hk := by
    have hnone : m.mine t k = none := by
      rw [Option.eq_none_iff_forall_not_mem]
      exact fun v hv => hk v ((h k v).mp hv)
    rw [Txn.commit_committed, hnone, Option.none_or]

theorem HoldsExactly.insert {k : Key} {v : Row k} (h : HoldsExactly t rows m) (hwf : m.WF)
    (hk : k ∉ m.keys) : HoldsExactly t (rows ++ [⟨k, v⟩]) (m.insert t k v) := by
  intro k' v'
  by_cases hkk : k' = k
  · subst hkk
    have hnot : ∀ w, (⟨k', w⟩ : KeyedRow) ∉ rows := fun w hw => by
      have := (h k' w).mpr hw
      rw [Txn.mine_absent hwf hk] at this
      cases this
    rw [Txn.mine_insert_self]
    simp [hnot, eq_comm]
  · rw [Txn.mine_insert_ne v hkk, h k' v']
    simp [hkk]

theorem BatchRows.nil : BatchRows t [] [] := ⟨rfl, by simp⟩

theorem BatchRows.snoc_job {jobs : List Job} (h : BatchRows t jobs rows) (job : Job) :
    BatchRows t (jobs ++ [job]) (rows ++ [jobRow t job]) where
  jobs := by
    rw [List.filter_append, h.jobs, List.map_append]
    rfl
  queues row hrow hjob := by
    rcases List.mem_append.mp hrow with hrow | hrow
    · exact h.queues row hrow hjob
    · rw [List.mem_singleton] at hrow
      subst hrow
      cases hjob

theorem BatchRows.snoc_queue {jobs : List Job} (h : BatchRows t jobs rows) (q : Queue) :
    BatchRows t jobs (rows ++ [queueRow q]) where
  jobs := by
    rw [List.filter_append, h.jobs]
    exact List.append_nil _
  queues row hrow hjob := by
    rcases List.mem_append.mp hrow with hrow | hrow
    · exact h.queues row hrow hjob
    · exact ⟨q, List.mem_singleton.mp hrow⟩

-- An insert publishes nothing, and what it inserts is held.
theorem insert_holdsExactly {k : Key} {v : Row k} {clash : ∀ k, Row k → Bool} {r : Bool} (hwf : m.WF)
    (h : HoldsExactly t rows m) (hexec : Txn.exec t (.insert k v clash) m = some (r, m')) :
    Quiet m m' ∧ (r = true → HoldsExactly t (rows ++ [⟨k, v⟩]) m') ∧
      (r = false → HoldsExactly t rows m') := by
  obtain ⟨hk, ⟨rfl, rfl, -⟩ | ⟨rfl, rfl, -, -⟩⟩ := exec_insert hexec
  · exact ⟨Txn.quiet_refl m', by simp, fun _ => h⟩
  · exact ⟨Txn.quiet_insert v, fun _ => h.insert hwf hk, by simp⟩

-- What a transaction that builds a batch has staged.
def StagedJobs (t : TxId) (jobs : List Job) (m : Db) : Prop :=
  ∃ rows, HoldsExactly t rows m ∧ BatchRows t jobs rows

theorem steady_stagedJobs (jobs : List Job) : Steady t (StagedJobs t jobs) := by
  rintro m m' ho ⟨rows, hheld, hrows⟩
  exact ⟨rows, steady_holdsExactly m m' ho hheld, hrows⟩

end Rows

section Programs

variable {t : TxId} {user : SessionUser} {batchId : Nat} {now : Time} {jobs staged : List Job}

theorem traced_select {β : Type} (query : Snapshot → β) {P : Db → Prop} (hP : Steady t P) :
    Traced t Quiet P (select query) fun _ => P := by
  refine .stmt hP (fun m r m' _ h hexec => ?_) fun m r _ hskip => by cases hskip
  simp only [Txn.exec, Option.some.injEq, Prod.mk.injEq] at hexec
  obtain ⟨-, rfl⟩ := hexec
  exact ⟨Txn.quiet_refl m, h⟩

theorem traced_flush (more : List Job) : Traced t Quiet (StagedJobs t jobs) (flush t more)
    fun ok m => ok = true → StagedJobs t (jobs ++ more) m := by
  induction more generalizing jobs with
  | nil => exact .pure fun m h _ => by rwa [List.append_nil]
  | cons job more ih =>
      rw [flush]
      split
      · refine .bind (Q := fun ok m => ok = true → StagedJobs t (jobs ++ [job]) m)
          (.stmt (steady_stagedJobs jobs) (fun m r m' hwf h hexec => ?_) fun m r _ hskip => by
            cases hskip) fun ok => ?_
        · obtain ⟨rows, hheld, hrows⟩ := h
          obtain ⟨hquiet, htrue, -⟩ := insert_holdsExactly hwf hheld hexec
          exact ⟨hquiet, fun hr => ⟨_, htrue hr, hrows.snoc_job job⟩⟩
        · cases ok with
          | true =>
              have hmore : Traced t Quiet (StagedJobs t (jobs ++ [job])) (flush t more)
                  fun ok m => ok = true → StagedJobs t (jobs ++ [job] ++ more) m := ih
              refine (hmore.pre fun m h => h rfl).post fun ok m h hok => ?_
              rw [List.append_cons]
              exact h hok
          | false => exact .pure fun m _ h => by cases h
      · exact .pure fun m _ h => by cases h

theorem traced_resolveProject (projectId : Option ProjectId) {P : Db → Prop} (hP : Steady t P) :
    Traced t Quiet P (resolveProject user projectId) fun _ => P := by
  unfold resolveProject
  cases projectId with
  | none =>
      refine .bind (traced_select _ hP) fun project => ?_
      cases project <;> exact .pure fun m h => h
  | some id =>
      refine .bind (traced_select _ hP) fun project => ?_
      cases project <;> exact .pure fun m h => h

theorem traced_resolveQueue (id : QueueId) (project : Project) (name : String) :
    Traced t Quiet (StagedJobs t jobs) (resolveQueue id project name) fun _ => StagedJobs t jobs := by
  unfold resolveQueue
  split
  swap
  · exact .pure fun m h => h
  refine .bind (traced_select _ (steady_stagedJobs jobs)) fun found => ?_
  cases found with
  | some queue => exact .pure fun m h => h
  | none =>
      refine .bind (Q := fun _ => StagedJobs t jobs) (.stmt (steady_stagedJobs jobs)
        (fun m r m' hwf h hexec => ?_) fun m r _ hskip => by cases hskip) fun ok => ?_
      · obtain ⟨rows, hheld, hrows⟩ := h
        obtain ⟨hquiet, htrue, hfalse⟩ := insert_holdsExactly hwf hheld hexec
        refine ⟨hquiet, ?_⟩
        cases r with
        | true => exact ⟨_, htrue rfl, hrows.snoc_queue (Queue.fresh id project.id name)⟩
        | false => exact ⟨_, hfalse rfl, hrows⟩
      · cases ok with
        | true => exact .pure fun m h => h
        | false =>
            refine .bind (traced_select _ (steady_stagedJobs jobs)) fun found => ?_
            cases found <;> exact .pure fun m h => h

theorem traced_resolveTarget (item : BatchItem) :
    Traced t Quiet (StagedJobs t jobs) (resolveTarget user item) fun _ => StagedJobs t jobs := by
  refine .bind (traced_resolveProject _ (steady_stagedJobs jobs)) fun project => ?_
  cases project with
  | error err => exact .pure fun m h => h
  | ok project => exact traced_resolveQueue _ _ _

-- The job of an item: everything but the queue is in the request.
def IsJobOf (user : SessionUser) (batchId : Nat) (now : Time) (item : BatchItem) (job : Job) :
    Prop :=
  ∃ queue, job = item.job user.id queue batchId now

theorem traced_stageItems (items : List BatchItem)
    (cache : List ((Option ProjectId × String) × Queue)) (storable : Bool) :
    Traced t Quiet (StagedJobs t jobs) (stageItems t user batchId now items cache staged storable)
      fun r m => ∀ more, r = .ok more → StagedJobs t (jobs ++ staged ++ more) m ∧
        List.Forall₂ (IsJobOf user batchId now) items more := by
  induction items generalizing jobs cache staged storable with
  | nil =>
      cases storable with
      | false => exact .pure fun m _ more hmore => by cases hmore
      | true =>
          refine .bind (traced_flush staged) fun ok => ?_
          cases ok with
          | true =>
              refine .pure fun m h more hmore => ?_
              obtain rfl := Except.ok.inj hmore
              exact ⟨by simpa using h rfl, .nil⟩
          | false => exact .pure fun m _ more hmore => by cases hmore
  | cons item items ih =>
      have hcons : ∀ (queue : Queue) (rest : Except PyError (List Job)) (m : Db) (more : List Job),
          (∀ more', rest = .ok more' →
            StagedJobs t (jobs ++ staged ++ [item.job user.id queue batchId now] ++ more') m ∧
              List.Forall₂ (IsJobOf user batchId now) items more') →
          rest.map (item.job user.id queue batchId now :: ·) = .ok more →
            StagedJobs t (jobs ++ staged ++ more) m ∧
              List.Forall₂ (IsJobOf user batchId now) (item :: items) more := by
        intro queue rest m more h hmore
        cases rest with
        | error err => cases hmore
        | ok more' =>
            obtain rfl := Except.ok.inj hmore
            obtain ⟨hstaged, hall⟩ := h more' rfl
            exact ⟨by rwa [List.append_cons], .cons ⟨queue, rfl⟩ hall⟩
      rw [stageItems]
      split
      · rename_i queue _
        refine .bind (ih cache _) fun rest => .pure fun m h more hmore =>
          hcons queue rest m more (fun more' hmore' => ?_) hmore
        simpa using h more' hmore'
      · split
        · refine .bind (traced_flush staged) fun ok => ?_
          cases ok with
          | false => exact .pure fun m _ more hmore => by cases hmore
          | true =>
              refine .bind ((traced_resolveTarget item).pre fun m h => h rfl) fun queue => ?_
              cases queue with
              | error err => exact .pure fun m _ more hmore => by cases hmore
              | ok queue =>
                  refine .bind (ih _ _) fun rest => .pure
                    fun m h more hmore => hcons queue rest m more h hmore
        · exact .pure fun m _ more hmore => by cases hmore

end Programs

-- All or nothing: either no statement of the call makes anything visible, nothing is held at the
-- end and the call does not return a batch, or exactly one statement does, and what it makes
-- visible is one job for each item, under the batch_id, and queue rows.
inductive AllOrNothing (t : TxId) (user : SessionUser) (items : List BatchItem) (batchId : Nat)
    (steps : List (Db × Db)) (out : Option (Except PyError (Nat × List Job))) (m' : Db) : Prop
  | nothing (hquiet : ∀ s ∈ steps, Quiet s.1 s.2) (hout : ∀ r, out ≠ some (.ok r))
      (hheld : m'.mine t = fun _ => none)
  | all (jobs : List Job) (rows : List KeyedRow) (now : Time) (before after : List (Db × Db))
      (s : Db × Db) (hsteps : steps = before ++ s :: after)
      (hquiet : ∀ s ∈ before ++ after, Quiet s.1 s.2) (hpub : Publishes rows s.1 s.2)
      (hrows : BatchRows t jobs rows)
      (hjobs : List.Forall₂ (IsJobOf user batchId now) items jobs)
      (hout : out = none ∨ out = some (.ok (batchId, jobs)))

section Executions

variable {t : TxId} {user : SessionUser} {items : List BatchItem} {batchId : Nat}
  {m m' : Db} {steps : List (Db × Db)} {out : Option (Except PyError (Nat × List Job))}

theorem execs_rollback {α : Type} {a : α} {out : Option α}
    (h : Execs t (stmt .rollback >>= fun _ => Pure.pure a : Tx α) m steps out m') :
    (∀ s ∈ steps, Quiet s.1 s.2) ∧ (out = none ∨ out = some a) ∧
      m'.mine t = fun _ => none := by
  cases h with
  | cut => exact ⟨by simp, .inl rfl, Txn.mine_rollback t m⟩
  | run ho he h =>
      simp only [Txn.exec, Option.some.injEq, Prod.mk.injEq] at he
      obtain ⟨-, rfl⟩ := he
      cases h with
      | ret =>
          refine ⟨?_, .inr rfl, Txn.mine_rollback t _⟩
          simpa using Txn.quiet_rollback t _
      | cut =>
          refine ⟨?_, .inl rfl, Txn.mine_rollback t _⟩
          simpa using Txn.quiet_rollback t _
  | skip hs h => cases hs

-- Every execution of a batch, whatever other transactions do in between.
theorem execs_enqueueBatch (hwf : m.WF) (hidle : m.mine t = fun _ => none)
    (h : Execs t (enqueueBatch t user items batchId) m steps out m') :
    AllOrNothing t user items batchId steps out m' := by
  have hempty : StagedJobs t [] m := ⟨[], fun k v => by simp [hidle], .nil⟩
  have hbegin : Traced t Quiet (StagedJobs t []) (stmt .begin : Tx Time) fun _ => StagedJobs t [] := by
    refine .stmt (steady_stagedJobs []) (fun m r m' _ h hexec => ?_) fun m r _ hskip => by cases hskip
    simp only [Txn.exec, Option.some.injEq, Prod.mk.injEq] at hexec
    obtain ⟨-, rfl⟩ := hexec
    exact ⟨Txn.quiet_refl m, h⟩
  rcases h.of_bind with ⟨rfl, hfirst⟩ | ⟨now, m₁, steps₁, steps₂, rfl, hfirst, h⟩
  · exact .nothing (hbegin m _ _ _ hwf hempty hfirst).1 (by simp) hfirst.mine_of_cut
  obtain ⟨hquiet₁, hpost⟩ := hbegin m _ _ _ hwf hempty hfirst
  obtain ⟨hwf₁, hstaged⟩ := hpost now rfl
  have hstage : Traced t Quiet (StagedJobs t []) (stageItems t user batchId now items [] [] true)
      fun r m => ∀ more, r = .ok more → StagedJobs t ([] ++ [] ++ more) m ∧
        List.Forall₂ (IsJobOf user batchId now) items more :=
    traced_stageItems items [] true
  rcases h.of_bind with ⟨rfl, hsecond⟩ | ⟨r, m₂, steps₃, steps₄, rfl, hsecond, h⟩
  · refine .nothing (fun s hs => ?_) (by simp) hsecond.mine_of_cut
    rcases List.mem_append.mp hs with hs | hs
    · exact hquiet₁ s hs
    · exact (hstage m₁ _ _ _ hwf₁ hstaged hsecond).1 s hs
  obtain ⟨hquiet₂, hpost⟩ := hstage m₁ _ _ _ hwf₁ hstaged hsecond
  obtain ⟨hwf₂, hjobs⟩ := hpost r rfl
  have hquiet : ∀ s ∈ steps₁ ++ steps₃, Quiet s.1 s.2 := by
    intro s hs
    rcases List.mem_append.mp hs with hs | hs
    · exact hquiet₁ s hs
    · exact hquiet₂ s hs
  cases r with
  | error err =>
      obtain ⟨hquiet₃, hout, hheld⟩ := execs_rollback h
      refine .nothing (fun s hs => ?_) (fun r hr => ?_) hheld
      · rw [← List.append_assoc] at hs
        rcases List.mem_append.mp hs with hs | hs
        · exact hquiet s hs
        · exact hquiet₃ s hs
      · rcases hout with rfl | rfl <;> cases hr
  | ok jobs =>
      obtain ⟨⟨rows, hheld, hbatch⟩, hall⟩ := hjobs jobs rfl
      cases h with
      | cut =>
          refine .nothing (fun s hs => ?_) (by simp) (Txn.mine_rollback t m₂)
          rw [List.append_nil] at hs
          exact hquiet s hs
      | skip hs h => cases hs
      | run ho he h =>
          simp only [Txn.exec, Option.some.injEq, Prod.mk.injEq] at he
          obtain ⟨-, rfl⟩ := he
          obtain ⟨hquiet₃, hout, -⟩ := execs_rollback h
          have hpub := publishes_commit (steady_holdsExactly _ _ ho hheld)
          refine .all jobs rows now (steps₁ ++ steps₃) _ _ (List.append_assoc _ _ _).symm
            (fun s hs => ?_) hpub hbatch hall hout
          rcases List.mem_append.mp hs with hs | hs
          · exact hquiet s hs
          · exact hquiet₃ s hs

end Executions

end Chronos
