import Chronos.Refinement.Staging
import Chronos.Services.Schedules
import Chronos.Txn.Additions

namespace Chronos

open Txn (TxId Upward Environment Adding)

-- The requests that create a queue on its first use.
inductive FirstUseCall
  | enqueue (user : SessionUser) (data : JobCreate) (ids : FreshIds)
  | enqueueBatch (user : SessionUser) (items : List JobService.BatchItem) (batchId : Nat)
  | createSchedule (user : SessionUser) (data : ScheduleCreate) (id : ScheduleId)
      (queueId : QueueId)

inductive FirstUseValue
  | enqueued (r : Except PyError (Job × Bool))
  | batch (r : Except PyError (Nat × List Job))
  | scheduled (r : Except PyError Schedule)

namespace FirstUseCall

-- Every body has passed its schema.
def accepted (validCron : String → Bool) : FirstUseCall → Bool
  | .enqueue _ data _ => data.accepted
  | .enqueueBatch _ items _ => items.all fun item => item.data.accepted
  | .createSchedule _ data _ _ => data.accepted validCron

def body (cron : CronClock) (tx : TxId) : FirstUseCall → Tx FirstUseValue
  | .enqueue user data ids => do
      let r ← JobService.enqueue tx user data ids
      return .enqueued r
  | .enqueueBatch user items batchId => do
      let r ← JobService.enqueueBatch tx user items batchId
      return .batch r
  | .createSchedule user data id queueId => do
      let r ← ScheduleService.create cron user data id queueId
      return .scheduled r

end FirstUseCall

abbrev FirstUseState := Txn.Pool Key Row Time FirstUseCall FirstUseValue
abbrev FirstUseEvent := Txn.Event Time FirstUseCall

def firstUseSystem (cron : CronClock) (validCron : String → Bool) :
    Txn.System Key Row Time FirstUseCall FirstUseValue :=
  ⟨fun _ c => c.accepted validCron, FirstUseCall.body cron⟩

section Requests

variable (m₀ : Db) (user : SessionUser)

-- The project of a request. The requests here create none.
def projectOf (projectId : Option ProjectId) : Option Project :=
  projectFor user projectId ⟨m₀.keys, m₀.stored⟩

-- `q` is the row of the queue that a request names.
structure QueueFor (projectId : Option ProjectId) (name : String) (q : Queue)
    (rows : ∀ k, Option (Row k)) : Prop where
  row : rows (.queue q.id) = some q
  project : ∃ p, projectOf m₀ user projectId = some p ∧ q.projectId = p.id
  name : q.name = name

def RefersTo (projectId : Option ProjectId) (name : String) (queueId : QueueId)
    (rows : ∀ k, Option (Row k)) : Prop :=
  ∃ q, q.id = queueId ∧ QueueFor m₀ user projectId name q rows

def HasJob (job : Job) (rows : ∀ k, Option (Row k)) : Prop :=
  ∃ e, rows (.job job.id) = some e ∧ e.job = job

-- The job of a request is there, and its queue is.
structure JobPlaced (data : JobCreate) (job : Job) (rows : ∀ k, Option (Row k)) : Prop where
  row : HasJob job rows
  queue : RefersTo m₀ user data.projectId data.queue job.queueId rows

structure SchedulePlaced (data : ScheduleCreate) (s : Schedule) (rows : ∀ k, Option (Row k)) :
    Prop where
  row : ∃ v, rows (.schedule s.id) = some v ∧ v = some s
  queue : RefersTo m₀ user data.projectId data.queue s.queueId rows

end Requests

-- The values of a request can be stored, and its project is found.
structure Storable (m₀ : Db) (user : SessionUser) (projectId : Option ProjectId) (name : String)
    (storable : Bool) : Prop where
  values : storable = true
  name : storableText name = true
  project : (projectOf m₀ user projectId).isSome = true

-- A request that is valid beyond its schema: its values can be stored, its project is found, its
-- dependencies exist, belong to the caller and are named once, and its schedule has a next tick.
def FirstUseCall.Valid (cron : CronClock) (m₀ m : Db) : FirstUseCall → Prop
  | .enqueue user data _ => Storable m₀ user data.projectId data.queue data.storable ∧
      data.dependsOn.Nodup ∧
      ∀ d ∈ data.dependsOn, ∃ e, m.stored (.job d) = some e ∧ e.job.ownerId = user.id
  | .enqueueBatch user items _ => ∀ item ∈ items,
      Storable m₀ user item.data.projectId item.data.queue item.data.storable
  | .createSchedule user data _ _ => Storable m₀ user data.projectId data.queue data.storable ∧
      ∀ now, (cron.next data.cronExpr now).isSome = true

-- A call that has returned what it was asked for. A job found by its idempotency key is not
-- created.
def FirstUseCall.Succeeds (m₀ : Db) (rows : ∀ k, Option (Row k)) :
    FirstUseCall → FirstUseValue → Prop
  | .enqueue user data _, .enqueued (.ok (job, created)) =>
      created = true → JobPlaced m₀ user data job rows
  | .enqueueBatch user items _, .batch (.ok (_, jobs)) =>
      List.Forall₂ (fun item job => JobPlaced m₀ user item.data job rows) items jobs
  | .createSchedule user data _ _, .scheduled (.ok s) => SchedulePlaced m₀ user data s rows
  | _, _ => False

-- The INSERT of a job that the index on idempotency keys refuses.
def jobClash (t : TxId) (m : Db) : {β : Type} → Txn.Stmt Key Row Time β → Bool
  | _, .insert (.job _) _ clash => Txn.insertClashes t clash m
  | _, _ => false

-- The INSERT of a queue that the index on names refuses.
def queueClash (t : TxId) (m : Db) : {β : Type} → Txn.Stmt Key Row Time β → Bool
  | _, .insert (.queue _) _ clash => Txn.insertClashes t clash m
  | _, _ => false

def FirstUseCall.schedules : FirstUseCall → Bool
  | .createSchedule _ _ _ _ => true
  | _ => false

-- The tables of projects and queues: no project comes or goes, and a name is used once.
structure QueueNames (m₀ m : Db) : Prop where
  projects : ∀ id, m.cell (.project id) = ⟨m₀.stored (.project id), none⟩
  projectIds : m.keys.filterMap Key.projectId = m₀.keys.filterMap Key.projectId
  checks : ∀ id q, QueueVersion m id q → q.checks = true ∧ q.id = id
  unique : ∀ i j q q', QueueVersion m i q → QueueVersion m j q' → q.SameName q' → i = j

section Names

variable {m₀ m m' : Db} {t : TxId}

theorem QueueNames.of_versions (h : QueueNames m₀ m)
    (hprojects : ∀ id, m'.cell (.project id) = m.cell (.project id)) (hkeys : m'.keys = m.keys)
    (hversions : ∀ id q, QueueVersion m' id q → QueueVersion m id q) : QueueNames m₀ m' where
  projects id := (hprojects id).trans (h.projects id)
  projectIds := by rw [hkeys, h.projectIds]
  checks id q hq := h.checks id q (hversions id q hq)
  unique i j q q' hq hq' := h.unique i j q q' (hversions i q hq) (hversions j q' hq')

theorem QueueNames.project_unheld (h : QueueNames m₀ m) (id : ProjectId) (v : Project) :
    (m.cell (.project id)).pending ≠ some (t, v) := by
  rw [h.projects id]
  simp

theorem QueueNames.environment (h : QueueNames m₀ m) (henv : Environment m m') :
    QueueNames m₀ m' := by
  refine h.of_versions (fun id => by rw [henv.cell]) henv.keys fun id q hq => ?_
  simpa only [QueueVersion, committedQueue, henv.cell] using hq

theorem QueueNames.commit (h : QueueNames m₀ m) : QueueNames m₀ (m.commit t) :=
  h.of_versions (fun id => Txn.Store.commit_cell_other fun v => h.project_unheld id v) rfl
    fun _ _ hq => queueVersion_of_commit hq

theorem QueueNames.rollback (h : QueueNames m₀ m) : QueueNames m₀ (m.rollback t) :=
  h.of_versions (fun id => Txn.Store.rollback_cell_other fun v => h.project_unheld id v) rfl
    fun _ _ hq => queueVersion_of_rollback hq

-- Rows of other tables.
theorem QueueNames.own_other (h : QueueNames m₀ m) {k : Key} {v : Row k}
    (hqueue : ∀ id, Key.queue id ≠ k) (hproject : ∀ id, Key.project id ≠ k) :
    QueueNames m₀ (m.own t k v) := by
  refine h.of_versions (fun id => Txn.Store.own_cell_ne t _ _ m (hproject id)) rfl fun id q hq => ?_
  rwa [QueueVersion, committedQueue, Txn.Store.own_committed,
    Txn.Store.own_cell_ne t _ _ m (hqueue id)] at hq

theorem projectIds_insert {k : Key} {v : Row k} (hproject : ∀ id, Key.project id ≠ k) :
    (m.insert t k v).keys.filterMap Key.projectId = m.keys.filterMap Key.projectId := by
  have hnone : Key.projectId k = none := by
    cases k with
    | project id => exact absurd rfl (hproject id)
    | _ => rfl
  simp [Txn.Store.insert, List.filterMap_append, hnone]

theorem QueueNames.insert_other (h : QueueNames m₀ m) {k : Key} {v : Row k}
    (hqueue : ∀ id, Key.queue id ≠ k) (hproject : ∀ id, Key.project id ≠ k) :
    QueueNames m₀ (m.insert t k v) := by
  have hown : QueueNames m₀ (m.own t k v) := h.own_other hqueue hproject
  exact ⟨hown.projects, (projectIds_insert hproject).trans h.projectIds, hown.checks, hown.unique⟩

-- A name that no version has can be given to a new queue.
theorem QueueNames.insert_queue (h : QueueNames m₀ m) (hwf : m.WF) (hadded : m.Added) {q : Queue}
    (hk : Key.queue q.id ∉ m.keys) (hchecks : q.checks = true)
    (hclash : Txn.insertClashes t (uqQueuesProjectName q) m = false)
    (hwaits : Txn.insertWaits (uqQueuesProjectName q) m = false) :
    QueueNames m₀ (m.insert t (.queue q.id) q) := by
  have hnew : ∀ id q', QueueVersion m id q' → ¬ q.SameName q' := by
    intro id q' hq' hsame
    have hname : uqQueuesProjectName q (.queue id) q' = true := by
      simp [uqQueuesProjectName, hsame.projectId, hsame.name]
    have hmem : Key.queue id ∈ m.keys := by
      by_contra hk'
      rcases hq' with hq' | ⟨s, hq'⟩
      · rw [committedQueue, hwf.absent _ hk'] at hq'
        cases hq'
      · rw [hwf.absent _ hk'] at hq'
        cases hq'
    rcases hq' with hq' | ⟨s, hq'⟩
    · have hseen : (m.cell (.queue id)).seen t = some q' := hadded.extends_view t _ _ hq'
      have hrefused : Txn.insertClashes t (uqQueuesProjectName q) m = true :=
        List.any_eq_true.mpr ⟨_, hmem, by rw [hseen]; exact hname⟩
      rw [hrefused] at hclash
      cases hclash
    · have hlater : Txn.insertWaits (uqQueuesProjectName q) m = true :=
        List.any_eq_true.mpr ⟨_, hmem, by rw [hq']; exact hname⟩
      rw [hlater] at hwaits
      cases hwaits
  have hversion : ∀ id q', QueueVersion (m.insert t (.queue q.id) q) id q' →
      QueueVersion m id q' ∨ id = q.id ∧ q' = q := by
    intro id q' hq'
    rw [QueueVersion, committedQueue, Txn.Store.insert_cell, Txn.Store.own_committed] at hq'
    by_cases heq : id = q.id
    · subst heq
      rcases hq' with hq' | ⟨s, hq'⟩
      · exact .inl (.inl hq')
      · rw [Txn.Store.own_cell_self, Option.some.injEq, Prod.mk.injEq] at hq'
        exact .inr ⟨rfl, hq'.2.symm⟩
    · rw [Txn.Store.own_cell_ne t _ _ m (by simpa using heq)] at hq'
      exact .inl hq'
  refine ⟨fun id => ?_, ?_, fun id q' hq' => ?_, fun i j q₁ q₂ h₁ h₂ hsame => ?_⟩
  · rw [Txn.Store.insert_cell, Txn.Store.own_cell_ne t _ _ m (by simp)]
    exact h.projects id
  · exact (projectIds_insert (by simp)).trans h.projectIds
  · rcases hversion id q' hq' with hold | ⟨rfl, rfl⟩
    · exact h.checks id q' hold
    · exact ⟨hchecks, rfl⟩
  · rcases hversion i q₁ h₁ with hold₁ | ⟨rfl, rfl⟩
    · rcases hversion j q₂ h₂ with hold₂ | ⟨rfl, rfl⟩
      · exact h.unique i j q₁ q₂ hold₁ hold₂ hsame
      · exact absurd ⟨hsame.projectId.symm, hsame.name.symm⟩ (hnew i q₁ hold₁)
    · rcases hversion j q₂ h₂ with hold₂ | ⟨rfl, rfl⟩
      · exact absurd hsame (hnew j q₂ hold₂)
      · rfl

end Names

def firstUse (cron : CronClock) (m₀ : Db) : Adding Key Row Time FirstUseCall FirstUseValue where
  admits c m := c.Valid cron m₀ m
  permits c t st m := jobClash t m st = false ∧ (c.schedules = true → queueClash t m st = false)
  inv := QueueNames m₀
  post c _ v m := c.Succeeds m₀ m.stored v
  environment _ _ h henv := h.environment henv
  commit _ _ h := h.commit
  rollback _ _ h := h.rollback

section Upward

variable {m₀ : Db} {user : SessionUser}

theorem upward_queueFor (projectId : Option ProjectId) (name : String) (q : Queue) :
    Upward (QueueFor m₀ user projectId name q) :=
  fun _ _ hext h => ⟨hext _ _ h.row, h.project, h.name⟩

theorem upward_refersTo (projectId : Option ProjectId) (name : String) (queueId : QueueId) :
    Upward (RefersTo m₀ user projectId name queueId) :=
  .exists fun q => (Upward.const _).and (upward_queueFor projectId name q)

theorem upward_hasJob (job : Job) : Upward (HasJob job) :=
  Upward.row (V := Row) (.job job.id) fun e => e.job = job

theorem upward_jobPlaced (data : JobCreate) (job : Job) : Upward (JobPlaced m₀ user data job) :=
  fun _ _ hext h => ⟨upward_hasJob job _ _ hext h.row, upward_refersTo _ _ _ _ _ hext h.queue⟩

theorem upward_schedulePlaced (data : ScheduleCreate) (s : Schedule) :
    Upward (SchedulePlaced m₀ user data s) := by
  have hrow : Upward fun rows : ∀ k, Option (Row k) =>
      ∃ v, rows (.schedule s.id) = some v ∧ v = some s :=
    Upward.row (V := Row) (.schedule s.id) fun v => v = some s
  exact fun _ _ hext h => ⟨hrow _ _ hext h.row, upward_refersTo _ _ _ _ _ hext h.queue⟩

end Upward

end Chronos
