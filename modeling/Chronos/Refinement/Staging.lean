import Chronos.Refinement.Enqueue
import Chronos.Services.Batch
import Chronos.Txn.Alone

namespace Chronos

open Txn (TxId Runs Sees Settled)
open JobService

variable {t : TxId} {v : Snapshot} {now : Time}

section Lookups

theorem reads_resolveProject {user : SessionUser} (projectId : Option ProjectId) :
    (resolveProject user projectId).All Txn.Stmt.Reads := by
  cases projectId with
  | none =>
      refine ⟨.select _, fun found => ?_⟩
      cases found <;> trivial
  | some id =>
      refine ⟨.select _, fun found => ?_⟩
      cases found <;> trivial

theorem reads_checkDependencies (ownerId : UserId) (deps : List JobId) (workflowId : Option Nat) :
    (checkDependencies ownerId deps workflowId).All Txn.Stmt.Reads := by
  induction deps generalizing workflowId with
  | nil => trivial
  | cons dep deps ih =>
      refine ⟨.select _, fun found => ?_⟩
      cases found with
      | none => trivial
      | some job => exact ih _

end Lookups

section Views

-- What is committed in a store nobody works on.
def committedView (m : Db) : Snapshot := ⟨m.keys, fun k => (m.cell k).committed⟩

theorem settled_committedView {m : Db} (hwf : m.WF) (hunlocked : ∀ k, (m.cell k).pending = none) :
    Settled (committedView m) m.clock m :=
  ⟨hwf, hunlocked, rfl, fun _ => rfl, rfl⟩

-- The snapshot with one more row.
abbrev Snapshot.with (v : Snapshot) (k : Key) (row : Row k) : Snapshot := Txn.View.insert k row v

theorem with_row_ne (v : Snapshot) (k k' : Key) (row : Row k) (h : k' ≠ k) :
    (v.with k row).row k' = v.row k' :=
  Txn.View.insert_row_ne row v h

-- The row just inserted, written again.
theorem sees_own_again {m : Db} {k : Key} {row : Row k} (h : Sees t (v.with k row) now m)
    (row' : Row k) : Sees t (v.with k row') now (m.own t k row') := by
  have hput : (v.with k row).put k row' = v.with k row' := by
    simp [Txn.View.insert, Txn.View.put]
  exact hput ▸ h.own row' (Txn.View.insert_row_self k row v)

-- The owner has a job with the key.
def Keyed (v : Snapshot) (ownerId : UserId) (key : String) : Prop :=
  ∃ id e, v.job id = some e ∧ e.job.ownerId = ownerId ∧ e.job.idempotencyKey = some key

theorem clashes_job {m : Db} (h : Sees t v now m) (job : Job) :
    v.clashes (uqJobsOwnerIdempotency job) = true ↔
      ∃ key, job.idempotencyKey = some key ∧ Keyed v job.ownerId key := by
  unfold Txn.View.clashes
  rw [List.any_eq_true]
  constructor
  · rintro ⟨k, -, hany⟩
    obtain ⟨row, hrow, hclash⟩ := (Option.any_eq_true _ _).mp hany
    cases k with
    | job id =>
        simp only [uqJobsOwnerIdempotency, decide_eq_true_eq] at hclash
        obtain ⟨hsome, howner, hkey⟩ := hclash
        obtain ⟨key, hjob⟩ := Option.isSome_iff_exists.mp hsome
        exact ⟨key, hjob, id, row, hrow, howner, hkey.trans hjob⟩
    | _ => simp [uqJobsOwnerIdempotency] at hclash
  · rintro ⟨key, hjob, id, e, he, howner, hkey⟩
    refine ⟨.job id, h.mem_keys he, (Option.any_eq_true _ _).mpr ⟨e, he, ?_⟩⟩
    simp [uqJobsOwnerIdempotency, hjob, howner, hkey]

theorem keyed_with_job {id : JobId} {e : JobEntry} (hnew : v.job id = none) (ownerId : UserId)
    (key : String) : Keyed (v.with (.job id) e) ownerId key ↔
      Keyed v ownerId key ∨ e.job.ownerId = ownerId ∧ e.job.idempotencyKey = some key := by
  constructor
  · rintro ⟨id', e', he', howner, hkey⟩
    by_cases hid : id' = id
    · subst hid
      simp only [Snapshot.job, Txn.View.insert_row_self, Option.some.injEq] at he'
      subst he'
      exact .inr ⟨howner, hkey⟩
    · rw [Snapshot.job, with_row_ne v (.job id) (.job id') e (by simpa using hid)] at he'
      exact .inl ⟨id', e', he', howner, hkey⟩
  · rintro (⟨id', e', he', howner, hkey⟩ | ⟨howner, hkey⟩)
    · have hid : id' ≠ id := by
        rintro rfl
        rw [hnew] at he'
        cases he'
      refine ⟨id', e', ?_, howner, hkey⟩
      rw [Snapshot.job, with_row_ne v (.job id) (.job id') e (by simpa using hid)]
      exact he'
    · exact ⟨id, e, Txn.View.insert_row_self _ _ _, howner, hkey⟩

theorem keyed_with_queue (id : QueueId) (q : Queue) (ownerId : UserId) (key : String) :
    Keyed (v.with (.queue id) q) ownerId key ↔ Keyed v ownerId key := by
  unfold Keyed
  simp only [Snapshot.job]
  have hrow : ∀ i, (v.with (.queue id) q).row (.job i) = v.row (.job i) :=
    fun i => with_row_ne v (.queue id) (.job i) q (by simp)
  simp only [hrow]

-- The project of a request, if it is found.
def projectFor (user : SessionUser) (projectId : Option ProjectId) (v : Snapshot) :
    Option Project :=
  match projectId with
  | some id => TenancyRepository.getProject id user.orgId v
  | none => TenancyRepository.defaultProject user.orgId v

theorem projectFor_congr {v v' : Snapshot} (hproject : v'.project = v.project)
    (hids : v'.projectIds = v.projectIds) (user : SessionUser) (projectId : Option ProjectId) :
    projectFor user projectId v' = projectFor user projectId v := by
  cases projectId with
  | some id => simp only [projectFor, TenancyRepository.getProject, hproject]
  | none => simp only [projectFor, TenancyRepository.defaultProject, hproject, hids]

theorem projectFor_with {k : Key} (row : Row k) (hk : ∀ id, k ≠ .project id) (user : SessionUser)
    (projectId : Option ProjectId) :
    projectFor user projectId (v.with k row) = projectFor user projectId v := by
  have hrow : ∀ id, (v.with k row).project id = v.project id :=
    fun id => with_row_ne v k (.project id) row (Ne.symm (hk id))
  have hids : (v.with k row).projectIds = v.projectIds := by
    have hnone : Key.projectId k = none := by
      cases k with
      | project id => exact absurd rfl (hk id)
      | _ => rfl
    simp [Snapshot.projectIds, Txn.View.insert, List.filterMap_append, hnone]
  exact projectFor_congr (funext hrow) hids user projectId

theorem getByName_with_job (id : JobId) (e : JobEntry) (projectId : ProjectId) (name : String) :
    QueueRepository.getByName projectId name (v.with (.job id) e) =
      QueueRepository.getByName projectId name v := by
  have hrow : (v.with (.job id) e).queue = v.queue :=
    funext fun i => with_row_ne v (.job id) (.queue i) e (by simp)
  have hids : (v.with (.job id) e).queueIds = v.queueIds := by
    simp [Snapshot.queueIds, Txn.View.insert, List.filterMap_append, Key.queueId]
  simp only [QueueRepository.getByName, hrow, hids]

theorem getByName_with_queue {id : QueueId} (hnew : .queue id ∉ v.keys) (q : Queue)
    (projectId : ProjectId) (name : String) :
    QueueRepository.getByName projectId name (v.with (.queue id) q) =
      (QueueRepository.getByName projectId name v).or
        (if q.projectId = projectId ∧ q.name = name then some q else none) := by
  have hids : (v.with (.queue id) q).queueIds = v.queueIds ++ [id] := by
    simp [Snapshot.queueIds, Txn.View.insert, List.filterMap_append, Key.queueId]
  have hold : v.queueIds.filterMap (v.with (.queue id) q).queue = v.queueIds.filterMap v.queue := by
    refine List.filterMap_congr fun i hi => ?_
    have hmem : Key.queue i ∈ v.keys := by
      obtain ⟨k, hk, hki⟩ := List.mem_filterMap.mp hi
      cases k with
      | queue j => simpa [Key.queueId] using (Option.some.inj hki) ▸ hk
      | _ => simp [Key.queueId] at hki
    have hne : i ≠ id := fun h => hnew (h ▸ hmem)
    exact with_row_ne v (.queue id) (.queue i) q (by simpa using hne)
  have hself : (v.with (.queue id) q).queue id = some q := Txn.View.insert_row_self _ _ _
  have hrows : (v.with (.queue id) q).queueIds.filterMap
      (fun i => (v.with (.queue id) q).queue i) = v.queueIds.filterMap v.queue ++ [q] := by
    rw [hids, List.filterMap_append, hold]
    simp [hself]
  unfold QueueRepository.getByName
  rw [hrows, List.find?_append]
  congr 1
  by_cases hq : q.projectId = projectId ∧ q.name = name <;> simp [hq]

theorem clashes_queue {m : Db} (h : Sees t v now m) (q : Queue) :
    v.clashes (uqQueuesProjectName q) = true ↔
      QueueRepository.getByName q.projectId q.name v ≠ none := by
  unfold Txn.View.clashes QueueRepository.getByName
  rw [List.any_eq_true, Option.ne_none_iff_isSome, List.find?_isSome]
  constructor
  · rintro ⟨k, hk, hany⟩
    obtain ⟨row, hrow, hclash⟩ := (Option.any_eq_true _ _).mp hany
    cases k with
    | queue id =>
        refine ⟨row, List.mem_filterMap.mpr ⟨id, ?_, hrow⟩, hclash⟩
        exact List.mem_filterMap.mpr ⟨.queue id, hk, rfl⟩
    | _ => simp [uqQueuesProjectName] at hclash
  · rintro ⟨row, hrow, hclash⟩
    obtain ⟨id, hid, hq⟩ := List.mem_filterMap.mp hrow
    exact ⟨.queue id, h.mem_keys hq, (Option.any_eq_true _ _).mpr ⟨row, hq, hclash⟩⟩

end Views

section Flush

def Snapshot.withJobs (t : TxId) (v : Snapshot) (jobs : List Job) : Snapshot :=
  jobs.foldl (fun v job => v.with (.job job.id) (newRow t job [])) v

-- The key of the job is taken, by a job of the owner or by an earlier one of the list.
def Taken (v : Snapshot) (before : List Job) (job : Job) : Prop :=
  ∃ key, job.idempotencyKey = some key ∧
    (Keyed v job.ownerId key ∨ ∃ job' ∈ before, job'.idempotencyKey = some key)

-- Jobs that can be inserted as far as their ids and the CHECK constraints go.
structure Insertable (v : Snapshot) (ownerId : UserId) (jobs : List Job) : Prop where
  fresh : ∀ job ∈ jobs, .job job.id ∉ v.keys
  distinct : (jobs.map Job.id).Nodup
  owner : ∀ job ∈ jobs, job.ownerId = ownerId
  checks : ∀ job ∈ jobs, job.checks = true

variable {ownerId : UserId} {job : Job} {jobs : List Job}

theorem withJobs_cons : v.withJobs t (job :: jobs) =
    (v.with (.job job.id) (newRow t job [])).withJobs t jobs := rfl

theorem Insertable.tail (h : Insertable v ownerId (job :: jobs)) :
    Insertable (v.with (.job job.id) (newRow t job [])) ownerId jobs where
  fresh job' hjob' := by
    have hdistinct := h.distinct
    rw [List.map_cons, List.nodup_cons] at hdistinct
    have hne : job'.id ≠ job.id := fun he => hdistinct.1 (List.mem_map.mpr ⟨job', hjob', he⟩)
    have hold := h.fresh job' (List.mem_cons_of_mem _ hjob')
    simp only [Snapshot.with, Txn.View.mem_insert_keys, not_or]
    exact ⟨hold, by simpa using hne⟩
  distinct := (List.nodup_cons.mp h.distinct).2
  owner job' hjob' := h.owner job' (List.mem_cons_of_mem _ hjob')
  checks job' hjob' := h.checks job' (List.mem_cons_of_mem _ hjob')

theorem taken_cons (hnew : v.job job.id = none) {before : List Job} {job' : Job}
    (howner : job'.ownerId = job.ownerId) :
    Taken (v.with (.job job.id) (newRow t job [])) before job' ↔ Taken v (job :: before) job' := by
  unfold Taken
  refine exists_congr fun key => and_congr_right fun _ => ?_
  rw [keyed_with_job hnew]
  simp only [newRow, howner, true_and, List.mem_cons, exists_eq_or_imp]
  rw [or_assoc]

theorem not_mem_keys {m : Db} (h : Sees t v now m) {id : JobId} (hid : .job id ∉ v.keys) :
    v.job id = none := by
  cases he : v.job id with
  | none => rfl
  | some e => exact absurd (h.mem_keys he) hid

-- A flush succeeds exactly if no key in it is taken, and then all its jobs can be seen.
theorem runs_flush (hjobs : Insertable v ownerId jobs) :
    Runs t (Sees t v now) (flush t jobs) fun ok m =>
      (ok = true ∧ Sees t (v.withJobs t jobs) now m ∧
        ∀ before job after, jobs = before ++ job :: after → ¬ Taken v before job) ∨
      (ok = false ∧ (∃ w, Sees t w now m) ∧
        ∃ before job after, jobs = before ++ job :: after ∧ Taken v before job) := by
  induction jobs generalizing v with
  | nil =>
      refine .pure fun m h => .inl ⟨rfl, h, fun before job after heq => ?_⟩
      simp at heq
  | cons job jobs ih =>
      intro m h
      have hfresh := hjobs.fresh job List.mem_cons_self
      have hnew := not_mem_keys h hfresh
      have hclash := clashes_job h job
      have hrest := ih (hjobs.tail (t := t))
      have hstep : Runs t (Sees t v now) (flush t (job :: jobs)) fun ok m =>
          (ok = true ∧ Sees t (v.withJobs t (job :: jobs)) now m ∧
            ∀ before job' after, job :: jobs = before ++ job' :: after → ¬ Taken v before job') ∨
          (ok = false ∧ (∃ w, Sees t w now m) ∧
            ∃ before job' after, job :: jobs = before ++ job' :: after ∧ Taken v before job') := by
        rw [flush, if_pos (hjobs.checks job List.mem_cons_self)]
        refine .bind (.insert _ _ hfresh) fun ok => ?_
        rintro m (⟨rfl, hfree, h⟩ | ⟨rfl, htaken, h⟩)
        · have hfirst : ¬ Taken v [] job := by
            rintro ⟨key, hkey, hkeyed | ⟨job', hjob', -⟩⟩
            · have := hclash.mpr ⟨key, hkey, hkeyed⟩
              rw [hfree] at this
              cases this
            · simp at hjob'
          obtain ⟨ok, m', hrun, hres⟩ := hrest m h
          refine ⟨ok, m', hrun, ?_⟩
          rcases hres with ⟨rfl, hsees, hnone⟩ | ⟨rfl, hsees, before, job', after, rfl, htaken⟩
          · refine .inl ⟨rfl, hsees, fun before job' after heq htaken => ?_⟩
            cases before with
            | nil =>
                obtain ⟨rfl, -⟩ := List.cons.inj heq
                exact hfirst htaken
            | cons first before =>
                obtain ⟨rfl, rfl⟩ := List.cons.inj heq
                have howner : job'.ownerId = job.ownerId :=
                  (hjobs.owner job' (by simp)).trans (hjobs.owner job (by simp)).symm
                exact hnone before job' after rfl ((taken_cons hnew howner).mpr htaken)
          · have howner : job'.ownerId = job.ownerId :=
              (hjobs.owner job' (by simp)).trans (hjobs.owner job (by simp)).symm
            exact .inr ⟨rfl, hsees, job :: before, job', after, rfl,
              (taken_cons hnew howner).mp htaken⟩
        · obtain ⟨key, hkey, hkeyed⟩ := hclash.mp htaken
          exact ⟨false, m, rfl, .inr ⟨rfl, ⟨v, h⟩, [], job, jobs, rfl, key, hkey, .inl hkeyed⟩⟩
      exact hstep m h

end Flush

section Queues

variable {user : SessionUser} {v₀ : Snapshot} {items before more : List BatchItem}
  {item : BatchItem} {projectId : ProjectId} {name : String} {q : Queue}

-- The item asks for the queue of this name in this project.
def Asks (user : SessionUser) (v₀ : Snapshot) (projectId : ProjectId) (name : String)
    (item : BatchItem) : Bool :=
  (projectFor user item.data.projectId v₀).any (·.id = projectId) ∧ item.data.queue = name

-- The queue of a name once the items have been through: the one there was, or the one created
-- for the first item that asked for it.
def namedQueue (user : SessionUser) (v₀ : Snapshot) (items : List BatchItem)
    (projectId : ProjectId) (name : String) : Option Queue :=
  (QueueRepository.getByName projectId name v₀).or
    ((items.find? (Asks user v₀ projectId name)).map fun item =>
      Queue.fresh item.queueId projectId name)

def queueFor (user : SessionUser) (v₀ : Snapshot) (items : List BatchItem) (item : BatchItem) :
    Option Queue :=
  (projectFor user item.data.projectId v₀).bind fun p =>
    namedQueue user v₀ items p.id item.data.queue

theorem namedQueue_append (h : namedQueue user v₀ items projectId name = some q)
    (more : List BatchItem) : namedQueue user v₀ (items ++ more) projectId name = some q := by
  unfold namedQueue at h ⊢
  rw [List.find?_append]
  cases hold : QueueRepository.getByName projectId name v₀ with
  | some q' => simpa [hold] using h
  | none =>
      cases hfind : items.find? (Asks user v₀ projectId name) with
      | none => simp [hold, hfind] at h
      | some item => simpa [hold, hfind] using h

-- What the snapshot tells about projects and queues, compared with the one at the start.
structure Resolved (user : SessionUser) (v₀ : Snapshot) (items : List BatchItem) (v : Snapshot) :
    Prop where
  project : ∀ id, projectFor user id v = projectFor user id v₀
  named : ∀ projectId name,
    QueueRepository.getByName projectId name v = namedQueue user v₀ items projectId name

theorem Resolved.refl : Resolved user v₀ [] v₀ where
  project _ := rfl
  named projectId name := by simp [namedQueue]

theorem Resolved.with_job (h : Resolved user v₀ items v) (id : JobId) (e : JobEntry) :
    Resolved user v₀ items (v.with (.job id) e) where
  project i := (projectFor_with (k := .job id) e (by simp) user i).trans (h.project i)
  named projectId name := (getByName_with_job id e projectId name).trans (h.named projectId name)

theorem Resolved.withJobs (h : Resolved user v₀ items v) (jobs : List Job) :
    Resolved user v₀ items (v.withJobs t jobs) := by
  induction jobs generalizing v with
  | nil => exact h
  | cons job jobs ih => exact ih (h.with_job job.id (newRow t job []))

-- An item whose queue is there adds nothing.
theorem Resolved.found (h : Resolved user v₀ before v) {p : Project}
    (hp : projectFor user item.data.projectId v₀ = some p)
    (hq : namedQueue user v₀ before p.id item.data.queue = some q) :
    Resolved user v₀ (before ++ [item]) v where
  project := h.project
  named projectId name := by
    rw [h.named]
    unfold namedQueue
    rw [List.find?_append]
    by_cases hask : Asks user v₀ projectId name item = true
    · have hsame : p.id = projectId ∧ item.data.queue = name := by
        simpa [Asks, hp] using hask
      obtain ⟨rfl, rfl⟩ := hsame
      unfold namedQueue at hq
      cases hold : QueueRepository.getByName p.id item.data.queue v₀ with
      | some q' => simp
      | none =>
          cases hfind : before.find? (Asks user v₀ p.id item.data.queue) with
          | none => simp [hold, hfind] at hq
          | some first => simp
    · have hnone : [item].find? (Asks user v₀ projectId name) = none := by simp [hask]
      rw [hnone, Option.or_none]

theorem Resolved.created (h : Resolved user v₀ before v) {p : Project}
    (hp : projectFor user item.data.projectId v₀ = some p)
    (hq : namedQueue user v₀ before p.id item.data.queue = none)
    (hnew : .queue item.queueId ∉ v.keys) :
    Resolved user v₀ (before ++ [item])
      (v.with (.queue item.queueId) (Queue.fresh item.queueId p.id item.data.queue)) where
  project i := (projectFor_with (k := .queue item.queueId) _ (by simp) user i).trans (h.project i)
  named projectId name := by
    rw [getByName_with_queue hnew, h.named]
    unfold namedQueue
    rw [List.find?_append]
    by_cases hask : Asks user v₀ projectId name item = true
    · have hsame : p.id = projectId ∧ item.data.queue = name := by
        simpa [Asks, hp] using hask
      obtain ⟨rfl, rfl⟩ := hsame
      unfold namedQueue at hq
      rw [Option.or_eq_none_iff, Option.map_eq_none_iff] at hq
      rw [hq.1, hq.2]
      simp [hask, Queue.fresh]
    · have hne : ¬ (p.id = projectId ∧ item.data.queue = name) := by
        simpa [Asks, hp] using hask
      have hnone : [item].find? (Asks user v₀ projectId name) = none := by simp [hask]
      rw [hnone, Option.or_none]
      simp [Queue.fresh, hne]

theorem runs_resolveProject {P : Project} (hp : projectFor user item.data.projectId v = some P) :
    Runs t (Sees t v now) (resolveProject user item.data.projectId) fun r m =>
      r = .ok P ∧ Sees t v now m := by
  unfold resolveProject
  cases hid : item.data.projectId with
  | some id =>
      simp only [projectFor, hid] at hp
      refine .bind (.select _) fun found => .given fun hfound => ?_
      obtain rfl : found = some P := hfound.trans hp
      exact .pure fun m h => ⟨rfl, h⟩
  | none =>
      simp only [projectFor, hid] at hp
      refine .bind (.select _) fun found => .given fun hfound => ?_
      obtain rfl : found = some P := hfound.trans hp
      exact .pure fun m h => ⟨rfl, h⟩

-- Looking up the queue of an item: afterwards it is there.
theorem runs_resolveQueue (hres : Resolved user v₀ before v) {p : Project}
    (hp : projectFor user item.data.projectId v₀ = some p)
    (hname : storableText item.data.queue = true) (hnew : .queue item.queueId ∉ v.keys) :
    Runs t (Sees t v now) (resolveQueue item.queueId p item.data.queue) fun r m =>
      ∃ q w, r = .ok q ∧ Sees t w now m ∧ Resolved user v₀ (before ++ [item]) w ∧
        namedQueue user v₀ (before ++ [item]) p.id item.data.queue = some q ∧
        (w = v ∨ ∃ q', w = v.with (.queue item.queueId) q') := by
  rw [resolveQueue, if_pos hname]
  refine .bind (.select _) fun found => .given fun hfound => ?_
  rw [hres.named] at hfound
  subst hfound
  cases hq : namedQueue user v₀ before p.id item.data.queue with
  | some q =>
      refine .pure fun m h => ⟨q, v, rfl, h, hres.found hp hq, ?_, .inl rfl⟩
      exact namedQueue_append hq [item]
  | none =>
      refine .bind (.insert _ _ hnew) fun ok => ?_
      rintro m (⟨rfl, -, h⟩ | ⟨rfl, hclash, h⟩)
      · refine ⟨_, m, rfl, _, _, rfl, h, hres.created hp hq hnew, ?_, .inr ⟨_, rfl⟩⟩
        rw [← (hres.created hp hq hnew).named, getByName_with_queue hnew, hres.named, hq]
        simp [Queue.fresh]
      · have hsome := (clashes_queue h _).mp hclash
        rw [hres.named] at hsome
        exact absurd hq hsome

theorem runs_resolveTarget (hres : Resolved user v₀ before v) {p : Project}
    (hp : projectFor user item.data.projectId v₀ = some p)
    (hname : storableText item.data.queue = true) (hnew : .queue item.queueId ∉ v.keys) :
    Runs t (Sees t v now) (resolveTarget user item) fun r m => ∃ q w, r = .ok q ∧ Sees t w now m ∧
      Resolved user v₀ (before ++ [item]) w ∧
      namedQueue user v₀ (before ++ [item]) p.id item.data.queue = some q ∧
      (w = v ∨ ∃ q', w = v.with (.queue item.queueId) q') := by
  refine .bind (runs_resolveProject ((hres.project _).trans hp)) fun r => .given fun hr => ?_
  subst hr
  exact runs_resolveQueue hres hp hname hnew

end Queues

end Chronos
