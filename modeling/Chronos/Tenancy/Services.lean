import Chronos.Tenancy.Queries

namespace Chronos

open Txn (TxId)

variable {tenant : Key → OrgId} {b : OrgId} {t : TxId} {user : SessionUser} {α β : Type}

-- A program of the organization's users.
abbrev Confined (tenant : Key → OrgId) (b : OrgId) (t : TxId) (p : Tx α) (R : α → Prop) : Prop :=
  Txn.Confined (tenants tenant) b t p R

section Jobs

variable (horg : user.orgId = b) (hid : tenant (.user user.id) = b)

-- A lookup that is answered with the row or with an error.
theorem confined_found {p : Tx (Option α)} {f : Option α → Tx (Except PyError α)} {err : PyError}
    {P : α → Prop} (h : Confined tenant b t p fun r => ∀ x, r = some x → P x)
    (hsome : ∀ x, f (some x) = Pure.pure (.ok x)) (hnone : f none = Pure.pure (.error err)) :
    Confined tenant b t (p >>= f) fun r => ∀ x, r = .ok x → P x := by
  refine .bind h fun found hfound => ?_
  cases found with
  | none =>
      rw [hnone]
      exact .pure fun x hx => by cases hx
  | some x =>
      rw [hsome]
      exact .pure fun y hy => hfound y (congrArg some (Except.ok.inj hy))

include horg in
theorem confined_resolveProject (projectId : Option ProjectId) :
    Confined tenant b t (JobService.resolveProject user projectId) fun r =>
      ∀ p, r = .ok p → tenant (.project p.id) = b := by
  subst horg
  cases projectId with
  | none =>
      refine confined_found (.select fun a ha v₁ v₂ h => ?_) (fun _ => rfl) rfl
      exact alike_defaultProject h ha
  | some id =>
      refine confined_found (.select fun a ha v₁ v₂ h => ?_) (fun _ => rfl) rfl
      exact alike_getProject h ha id

theorem confined_insertQueue {id : QueueId} (hq : tenant (.queue id) = b) {queue : Queue}
    (hqueue : queue.id = id) (hproject : tenant (.project queue.projectId) = b) :
    Confined tenant b t (insertQueue id queue (uqQueuesProjectName queue)) fun _ => True := by
  refine .insert hq ⟨hqueue, hproject.trans hq.symm⟩ fun k row hok hclash => ?_
  cases k with
  | queue id' =>
      obtain ⟨-, hproj⟩ := hok
      simp only [uqQueuesProjectName, decide_eq_true_eq] at hclash
      exact hproj.symm.trans (hclash.1 ▸ hproject)
  | _ => cases hclash

theorem confined_getByName {projectId : ProjectId} (hproject : tenant (.project projectId) = b)
    (name : String) : Confined tenant b t (select (QueueRepository.getByName projectId name))
      fun r => ∀ q, r = some q → tenant (.queue q.id) = b :=
  .select fun _ ha _ _ h => alike_getByName h ha hproject name

theorem confined_resolveQueue {id : QueueId} (hq : tenant (.queue id) = b) {project : Project}
    (hproject : tenant (.project project.id) = b) (name : String) :
    Confined tenant b t (JobService.resolveQueue id project name) fun r =>
      ∀ q, r = .ok q → tenant (.queue q.id) = b := by
  unfold JobService.resolveQueue
  cases storableText name with
  | false => exact .pure fun q heq => by cases heq
  | true =>
      refine .bind (confined_getByName hproject name) fun found hfound => ?_
      cases found with
      | some queue => exact .pure fun q heq => hfound q (congrArg some (Except.ok.inj heq))
      | none =>
          refine .bind (confined_insertQueue hq rfl hproject) fun inserted _ => ?_
          cases inserted with
          | true => exact .pure fun q heq => Except.ok.inj heq ▸ hq
          | false =>
              refine .bind (confined_getByName hproject name) fun found hfound => ?_
              cases found with
              | some queue => exact .pure fun q heq => hfound q (congrArg some (Except.ok.inj heq))
              | none => exact .pure fun q heq => by cases heq

theorem confined_checkDependencies {ownerId : UserId} (howner : tenant (.user ownerId) = b)
    (deps : List JobId) (workflowId : Option Nat) :
    Confined tenant b t (JobService.checkDependencies ownerId deps workflowId) fun _ => True := by
  induction deps generalizing workflowId with
  | nil => exact .return _
  | cons dep deps ih =>
      refine .bind (.query fun a ha v₁ v₂ h => (alike_getForOwner h ha howner dep).1) fun job _ => ?_
      cases job with
      | none => exact .return _
      | some job => exact ih _

-- A job of the organization, in a queue of the organization.
theorem confined_insertEntry {job : Job} (hjob : tenant (.job job.id) = b)
    (howner : tenant (.user job.ownerId) = b) (hqueue : tenant (.queue job.queueId) = b)
    (log : List JobEvent) :
    Confined tenant b t (insertEntry job.id
      { job := job, attempts := [], dependsOn := [], log := log } (uqJobsOwnerIdempotency job))
      fun _ => True := by
  refine .insert hjob ⟨howner.trans hjob.symm, hqueue.trans hjob.symm⟩ fun k row hok hclash => ?_
  cases k with
  | job id =>
      obtain ⟨hown, -⟩ := hok
      simp only [uqJobsOwnerIdempotency, decide_eq_true_eq] at hclash
      exact hown.symm.trans (hclash.2.1 ▸ howner)
  | _ => cases hclash

theorem confined_insertJob (tx : TxId) {job : Job} (hjob : tenant (.job job.id) = b)
    (howner : tenant (.user job.ownerId) = b) (hqueue : tenant (.queue job.queueId) = b)
    (dependsOn : List JobId) :
    Confined tenant b t (JobService.insertJob tx job dependsOn) fun _ => True := by
  unfold JobService.insertJob
  cases job.checks with
  | false => exact .return _
  | true =>
      refine .bind (confined_insertEntry hjob howner hqueue _) fun inserted _ => ?_
      cases inserted with
      | false => exact .return _
      | true =>
          by_cases hnodup : dependsOn.Nodup
          · simp only [hnodup, if_true]
            exact .bind (.write hjob fun e hok => hok) fun _ _ => .bind .commit fun _ _ => .return _
          · simp only [hnodup, if_false]
            exact .return _

include hid in
theorem confined_recover (data : JobCreate) :
    Confined tenant b t (JobService.recover user data) fun _ => True := by
  refine .bind .rollback fun _ _ => ?_
  cases JobService.truthyKey data with
  | none => exact .return _
  | some key =>
      cases user.attached with
      | true => exact .return _
      | false =>
          refine .bind (.query fun a ha v₁ v₂ h => alike_getByIdempotencyKey h ha hid key)
            fun existing _ => ?_
          cases existing <;> exact .return _

include horg hid in
theorem confined_create (tx : TxId) (data : JobCreate) {ids : FreshIds}
    (hjob : tenant (.job ids.job) = b) (hqueue : tenant (.queue ids.queue) = b) (now : Time) :
    Confined tenant b t (JobService.create tx user data ids now) fun _ => True := by
  refine .bind (confined_resolveProject horg _) fun project hproject => ?_
  cases project with
  | error err => exact .return _
  | ok project =>
      refine .bind (confined_resolveQueue hqueue (hproject project rfl) _) fun queue hq => ?_
      cases queue with
      | error err => exact .return _
      | ok queue =>
          refine .bind (confined_checkDependencies hid _ _) fun workflowId _ => ?_
          cases workflowId with
          | error err => exact .return _
          | ok workflowId =>
              dsimp only
              cases data.storable with
              | false => exact .return _
              | true =>
                  refine .bind (confined_insertJob tx hjob hid (hq queue rfl) _) fun inserted _ => ?_
                  cases inserted with
                  | true => exact .return _
                  | false => exact confined_recover hid data

include horg hid in
theorem confined_enqueue (tx : TxId) (data : JobCreate) {ids : FreshIds}
    (hjob : tenant (.job ids.job) = b) (hqueue : tenant (.queue ids.queue) = b) :
    Confined tenant b t (JobService.enqueue tx user data ids) fun _ => True := by
  refine .bind .begin fun now _ => .bind (R := fun _ => True) ?_ fun found _ => ?_
  · unfold JobService.preCheck
    cases JobService.truthyKey data with
    | none => exact .return _
    | some key =>
        dsimp only
        split
        · exact .bind (.query fun a ha v₁ v₂ h => alike_getByIdempotencyKey h ha hid key)
            fun existing _ => .return _
        · exact .return _
  · cases found with
    | error err => exact .abort _
    | ok found =>
        cases found with
        | some job => exact .abort _
        | none => exact .bind (confined_create horg hid tx data hjob hqueue now) fun result _ =>
            .abort result

-- The row a transition of the owner leaves belongs to whom it belonged.
theorem confined_transition {ownerId : UserId} (howner : tenant (.user ownerId) = b) (jobId : JobId)
    {u : Time → GuardedUpdate} (event : JobEvent) (conflict : String)
    (hguard : ∀ now job, (u now).guard job = true → job.ownerId = ownerId)
    (hset : ∀ now job, ((u now).set job).ownerId = job.ownerId ∧
      ((u now).set job).queueId = job.queueId) :
    Confined tenant b t (JobService.transition ownerId jobId u event conflict) fun _ => True := by
  refine .bind .begin fun now _ => .bind (.update (fun e hok hg => ?_) fun e hok => ?_) fun row _ => ?_
  · obtain ⟨hown, -⟩ := hok
    exact hown.symm.trans (hguard now e.job hg ▸ howner)
  · obtain ⟨howner', hqueue'⟩ := hset now e.job
    simp only [tenants, JobEntry.amend, howner', hqueue'] at hok ⊢
    exact hok
  · cases row with
    | some e => exact .finish _
    | none =>
        refine .bind (.query fun a ha v₁ v₂ h => (alike_getForOwner h ha howner jobId).1)
          fun job _ => .bind .rollback fun _ _ => ?_
        cases job <;> exact .return _

theorem confined_cancel {ownerId : UserId} (howner : tenant (.user ownerId) = b) (jobId : JobId) :
    Confined tenant b t (JobService.cancel ownerId jobId) fun _ => True := by
  refine confined_transition howner jobId _ _ (fun now job hg => ?_) fun now job => ⟨rfl, rfl⟩
  simp only [JobRepository.cancel, decide_eq_true_eq] at hg
  exact hg.1

theorem confined_requeue {ownerId : UserId} (howner : tenant (.user ownerId) = b) (jobId : JobId) :
    Confined tenant b t (JobService.requeue ownerId jobId) fun _ => True := by
  refine confined_transition howner jobId _ _ (fun now job hg => ?_) fun now job => ⟨rfl, rfl⟩
  simp only [JobRepository.requeue, decide_eq_true_eq] at hg
  exact hg.1

theorem confined_get {ownerId : UserId} (howner : tenant (.user ownerId) = b) (jobId : JobId) :
    Confined tenant b t (JobService.get ownerId jobId) fun r =>
      ∀ job, r = .ok job → tenant (.job jobId) = b :=
  confined_found (.select fun _ ha _ _ h => alike_getForOwner h ha howner jobId) (fun _ => rfl) rfl

theorem confined_listJobs {ownerId : UserId} (howner : tenant (.user ownerId) = b)
    (f : JobRepository.JobFilter) (limit offset : Nat) :
    Confined tenant b t (JobService.listJobs ownerId f limit offset) fun _ => True :=
  .lookup (.query fun _ ha _ _ h => alike_listForOwner h ha howner f limit offset)

theorem confined_listOfJob {ownerId : UserId} (howner : tenant (.user ownerId) = b) (jobId : JobId)
    (rows : JobEntry → List α) :
    Confined tenant b t (JobService.listOfJob ownerId jobId rows) fun _ => True := by
  refine .bind .begin fun _ _ => .bind (confined_get howner jobId) fun job hjob => ?_
  cases job with
  | error err => exact .abort _
  | ok job =>
      refine .bind (.query fun a ha v₁ v₂ h => ?_) fun found _ => .abort _
      have hrow : Snapshot.job v₁ jobId = Snapshot.job v₂ jobId :=
        h.row (.job jobId) fun hid => ha (hid.symm.trans (hjob job rfl))
      rw [hrow]

end Jobs

section Batch

open JobService (BatchItem)

-- A job that belongs to the organization in every way.
structure Belongs (tenant : Key → OrgId) (b : OrgId) (job : Job) : Prop where
  row : tenant (.job job.id) = b
  owner : tenant (.user job.ownerId) = b
  queue : tenant (.queue job.queueId) = b

variable (horg : user.orgId = b) (hid : tenant (.user user.id) = b)

theorem confined_flush (tx : TxId) {jobs : List Job} (hjobs : ∀ job ∈ jobs, Belongs tenant b job) :
    Confined tenant b t (JobService.flush tx jobs) fun _ => True := by
  induction jobs with
  | nil => exact .return _
  | cons job jobs ih =>
      rw [List.forall_mem_cons] at hjobs
      obtain ⟨hjob, hjobs⟩ := hjobs
      unfold JobService.flush
      cases job.checks with
      | false => exact .return _
      | true =>
          refine .bind (confined_insertEntry hjob.row hjob.owner hjob.queue _) fun inserted _ => ?_
          cases inserted with
          | true => exact ih hjobs
          | false => exact .return _

include horg hid in
theorem confined_stageItems (tx : TxId) (batchId : Nat) (now : Time) {items : List BatchItem}
    (hitems : ∀ item ∈ items, tenant (.job item.jobId) = b ∧ tenant (.queue item.queueId) = b)
    {cache : List ((Option ProjectId × String) × Queue)}
    (hcache : ∀ p ∈ cache, tenant (.queue p.2.id) = b) {staged : List Job}
    (hstaged : ∀ job ∈ staged, Belongs tenant b job) (storable : Bool) :
    Confined tenant b t (JobService.stageItems tx user batchId now items cache staged storable)
      fun _ => True := by
  induction items generalizing cache staged storable with
  | nil =>
      cases storable with
      | false => exact .return _
      | true =>
          refine .bind (confined_flush tx hstaged) fun flushed _ => ?_
          cases flushed <;> exact .return _
  | cons item items ih =>
      rw [List.forall_mem_cons] at hitems
      obtain ⟨⟨hjob, hqueue⟩, hitems⟩ := hitems
      have hbelongs : ∀ queue : Queue, tenant (.queue queue.id) = b →
          Belongs tenant b (item.job user.id queue batchId now) :=
        fun queue hq => ⟨hjob, hid, hq⟩
      unfold JobService.stageItems
      cases hlookup : cache.lookup item.target with
      | some queue =>
          have hq : tenant (.queue queue.id) = b := by
            obtain ⟨older, newer, hcached, -⟩ := List.lookup_eq_some_iff.mp hlookup
            exact hcache (item.target, queue) (by simp [hcached])
          refine .bind (ih hitems hcache (fun job hmem => ?_) _) fun rest _ => .return _
          rw [List.mem_append, List.mem_singleton] at hmem
          exact hmem.elim (hstaged job) fun heq => heq ▸ hbelongs queue hq
      | none =>
          cases storable with
          | false => exact .return _
          | true =>
              refine .bind (confined_flush tx hstaged) fun flushed _ => ?_
              cases flushed with
              | false => exact .return _
              | true =>
                  refine .bind (R := fun r => ∀ q, r = .ok q → tenant (.queue q.id) = b) ?_
                    fun queue hq => ?_
                  · refine .bind (confined_resolveProject horg _) fun project hproject => ?_
                    cases project with
                    | error err => exact .pure fun q heq => by cases heq
                    | ok project => exact confined_resolveQueue hqueue (hproject project rfl) _
                  · cases queue with
                    | error err => exact .return _
                    | ok queue =>
                        refine .bind (ih hitems (fun p hp => ?_) (fun job hmem => ?_) _) fun rest _ =>
                          .return _
                        · rw [List.mem_cons] at hp
                          exact hp.elim (fun heq => heq ▸ hq queue rfl) (hcache p)
                        · rw [List.mem_singleton] at hmem
                          exact hmem ▸ hbelongs queue (hq queue rfl)

include horg hid in
theorem confined_enqueueBatch (tx : TxId) (batchId : Nat) {items : List BatchItem}
    (hitems : ∀ item ∈ items, tenant (.job item.jobId) = b ∧ tenant (.queue item.queueId) = b) :
    Confined tenant b t (JobService.enqueueBatch tx user items batchId) fun _ => True := by
  refine .bind .begin fun now _ => ?_
  refine .bind (confined_stageItems horg hid tx batchId now hitems (by simp) (by simp) true)
    fun jobs _ => ?_
  cases jobs with
  | ok jobs => exact .finish _
  | error err => exact .abort _

end Batch

end Chronos
