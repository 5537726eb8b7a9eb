import Chronos.Refinement.Staging

namespace Chronos

open Txn (TxId Runs Sees)
open JobService

section Collisions

-- The idempotency key of an item is one the owner has a job with, or one of an earlier item.
def Collides (v₀ : Snapshot) (ownerId : UserId) (before : List BatchItem) (item : BatchItem) :
    Prop :=
  ∃ key, item.data.idempotencyKey = some key ∧
    (Keyed v₀ ownerId key ∨ ∃ d ∈ before, d.data.idempotencyKey = some key)

def HasCollision (v₀ : Snapshot) (ownerId : UserId) (items : List BatchItem) : Prop :=
  ∃ before item after, items = before ++ item :: after ∧ Collides v₀ ownerId before item

-- Behind a colliding item comes one that is the first to name its project and queue.
def LateLookup (v₀ : Snapshot) (ownerId : UserId) (items : List BatchItem) : Prop :=
  ∃ before item between late after, items = before ++ item :: (between ++ late :: after) ∧
    Collides v₀ ownerId before item ∧
    late.target ∉ (before ++ item :: between).map BatchItem.target

-- Postgres can store every value of the item.
def Stored (item : BatchItem) : Prop :=
  item.data.storable = true ∧ storableText item.data.queue = true

instance (item : BatchItem) : Decidable (Stored item) :=
  inferInstanceAs (Decidable (_ ∧ _))

-- A batch with nothing in its way but idempotency keys and values Postgres refuses: the projects
-- are found, the bodies have passed the schema, the rows of queues have passed their CHECK
-- constraints, and the ids are fresh.
structure Acceptable (user : SessionUser) (v₀ : Snapshot) (items : List BatchItem) : Prop where
  projects : ∀ item ∈ items, projectFor user item.data.projectId v₀ ≠ none
  bodies : ∀ item ∈ items, item.data.accepted = true
  queues : ∀ id q, v₀.queue id = some q → q.checks = true
  freshJobs : ∀ item ∈ items, .job item.jobId ∉ v₀.keys
  freshQueues : ∀ item ∈ items, .queue item.queueId ∉ v₀.keys
  distinctJobs : (items.map BatchItem.jobId).Nodup
  distinctQueues : (items.map BatchItem.queueId).Nodup

end Collisions

section Split

variable {α β : Type} {R : α → β → Prop}

theorem forall₂_split_right {l : List α} {before after : List β} {b : β}
    (h : List.Forall₂ R l (before ++ b :: after)) :
    ∃ before' a after', l = before' ++ a :: after' ∧ List.Forall₂ R before' before ∧ R a b := by
  induction before generalizing l with
  | nil =>
      obtain ⟨a, after', hab, -, rfl⟩ := List.forall₂_cons_right_iff.mp h
      exact ⟨[], a, after', rfl, .nil, hab⟩
  | cons first before ih =>
      obtain ⟨first', rest, hfirst, hrest, rfl⟩ := List.forall₂_cons_right_iff.mp h
      obtain ⟨before', a, after', rfl, hbefore, hab⟩ := ih hrest
      exact ⟨first' :: before', a, after', rfl, .cons hfirst hbefore, hab⟩

theorem forall₂_split_left {l : List β} {before after : List α} {a : α}
    (h : List.Forall₂ R (before ++ a :: after) l) :
    ∃ before' b after', l = before' ++ b :: after' ∧ List.Forall₂ R before before' ∧ R a b := by
  induction before generalizing l with
  | nil =>
      obtain ⟨b, after', hab, -, rfl⟩ := List.forall₂_cons_left_iff.mp h
      exact ⟨[], b, after', rfl, .nil, hab⟩
  | cons first before ih =>
      obtain ⟨first', rest, hfirst, hrest, rfl⟩ := List.forall₂_cons_left_iff.mp h
      obtain ⟨before', b, after', rfl, hbefore, hab⟩ := ih hrest
      exact ⟨first' :: before', b, after', rfl, .cons hfirst hbefore, hab⟩

theorem split_append {l₁ l₂ before after : List α} {a : α}
    (h : l₁ ++ l₂ = before ++ a :: after) :
    (∃ mid, l₁ = before ++ a :: mid) ∨ ∃ mid, before = l₁ ++ mid ∧ l₂ = mid ++ a :: after := by
  rcases List.append_eq_append_iff.mp h with ⟨mid, rfl, rfl⟩ | ⟨mid, rfl, hmid⟩
  · exact .inr ⟨mid, rfl, rfl⟩
  · cases mid with
    | nil => exact .inr ⟨[], by simp, by simpa using hmid.symm⟩
    | cons first mid =>
        obtain ⟨rfl, -⟩ := List.cons.inj hmid
        exact .inl ⟨mid, rfl⟩

end Split

variable {t : TxId} {user : SessionUser} {v₀ v : Snapshot} {batchId : Nat} {now : Time}
  {items flushed pending : List BatchItem} {item : BatchItem} {staged : List Job} {q : Queue}
  {cache : List ((Option ProjectId × String) × Queue)}

-- The job that a batch makes of an item.
def JobFor (user : SessionUser) (v₀ : Snapshot) (batchId : Nat) (now : Time)
    (items : List BatchItem) (item : BatchItem) (job : Job) : Prop :=
  ∃ q, queueFor user v₀ items item = some q ∧ job = item.job user.id q batchId now

-- How far the loop of enqueue_batch has come: `flushed` are the items whose jobs are inserted,
-- `pending` those whose jobs are staged only.
structure Progress (t : TxId) (user : SessionUser) (v₀ : Snapshot) (batchId : Nat) (now : Time)
    (items flushed pending : List BatchItem) (cache : List ((Option ProjectId × String) × Queue))
    (staged : List Job) (v : Snapshot) : Prop where
  resolved : Resolved user v₀ (flushed ++ pending) v
  cached : ∀ target q, cache.lookup target = some q → ∃ p, projectFor user target.1 v₀ = some p ∧
    namedQueue user v₀ (flushed ++ pending) p.id target.2 = some q
  targets : ∀ target, cache.lookup target = none ↔
    target ∉ (flushed ++ pending).map BatchItem.target
  staged : List.Forall₂ (JobFor user v₀ batchId now items) pending staged
  keyed : ∀ key, Keyed v user.id key ↔
    Keyed v₀ user.id key ∨ ∃ d ∈ flushed, d.data.idempotencyKey = some key
  clean : ¬ HasCollision v₀ user.id flushed
  tail : ∀ before d after, pending = before ++ d :: after → before ≠ [] →
    d.target ∈ (flushed ++ before).map BatchItem.target
  keys : ∀ k ∈ v.keys, k ∈ v₀.keys ∨ (∃ d ∈ flushed, k = .job d.jobId) ∨
    ∃ d ∈ flushed ++ pending, k = .queue d.queueId
  rows : ∀ d ∈ flushed, ∃ job, JobFor user v₀ batchId now items d job ∧
    v.job d.jobId = some (newRow t job [])

theorem Progress.start : Progress t user v₀ batchId now items [] [] [] [] v₀ where
  resolved := .refl
  cached target q h := by simp at h
  targets target := by simp
  staged := .nil
  keyed key := by simp
  clean := by
    rintro ⟨before, item, after, h, -⟩
    simp at h
  tail before d after h := by simp at h
  keys k hk := .inl hk
  rows d hd := by simp at hd

theorem jobFor_keys {before : List BatchItem} {jobs : List Job}
    (h : List.Forall₂ (JobFor user v₀ batchId now items) before jobs) (key : String) :
    (∃ job ∈ jobs, job.idempotencyKey = some key) ↔
      ∃ d ∈ before, d.data.idempotencyKey = some key := by
  induction h with
  | nil => simp
  | cons hd _ ih =>
      obtain ⟨q, -, rfl⟩ := hd
      simp only [List.mem_cons, exists_eq_or_imp, ih]
      rfl

theorem taken_iff (hkeyed : ∀ key, Keyed v user.id key ↔
      Keyed v₀ user.id key ∨ ∃ d ∈ flushed, d.data.idempotencyKey = some key)
    {before : List BatchItem} {jobs : List Job} {job : Job}
    (hbefore : List.Forall₂ (JobFor user v₀ batchId now items) before jobs)
    (hjob : JobFor user v₀ batchId now items item job) :
    Taken v jobs job ↔ Collides v₀ user.id (flushed ++ before) item := by
  obtain ⟨q, -, rfl⟩ := hjob
  unfold Taken Collides
  refine exists_congr fun key => and_congr_right fun _ => ?_
  rw [jobFor_keys hbefore, show (item.job user.id q batchId now).ownerId = user.id from rfl, hkeyed]
  simp only [List.mem_append, or_and_right, exists_or, or_assoc]

theorem queueFor_of_named {p : Project} (hp : projectFor user item.data.projectId v₀ = some p)
    {before : List BatchItem} (rest : List BatchItem) (hitems : items = before ++ rest)
    (hq : namedQueue user v₀ before p.id item.data.queue = some q) :
    queueFor user v₀ items item = some q := by
  rw [queueFor, hp, Option.bind_some, hitems]
  exact namedQueue_append hq rest

-- The queue of an item passes the CHECK constraints, and so does its job.
theorem queueFor_checks (hqueues : ∀ id q, v₀.queue id = some q → q.checks = true)
    (h : queueFor user v₀ items item = some q) : q.checks = true := by
  obtain ⟨p, -, hq⟩ := Option.bind_eq_some_iff.mp h
  unfold namedQueue at hq
  cases hold : QueueRepository.getByName p.id item.data.queue v₀ with
  | some q' =>
      rw [hold, Option.some_or, Option.some.injEq] at hq
      subst hq
      obtain ⟨id, -, hid⟩ := List.mem_filterMap.mp (List.mem_of_find?_eq_some hold)
      exact hqueues id q' hid
  | none =>
      rw [hold, Option.none_or, Option.map_eq_some_iff] at hq
      obtain ⟨first, -, rfl⟩ := hq
      exact Queue.fresh_checks ..

theorem JobFor.checks (hok : Acceptable user v₀ items) (hmem : item ∈ items) {job : Job}
    (h : JobFor user v₀ batchId now items item job) : job.checks = true := by
  obtain ⟨q, hq, rfl⟩ := h
  exact buildJob_checks item.jobId user.id none now (hok.bodies item hmem)
    (queueFor_checks hok.queues hq)

theorem jobFor_ids {before : List BatchItem} {jobs : List Job}
    (h : List.Forall₂ (JobFor user v₀ batchId now items) before jobs) :
    jobs.map Job.id = before.map BatchItem.jobId := by
  induction h with
  | nil => rfl
  | cons hd _ ih =>
      obtain ⟨q, -, rfl⟩ := hd
      simp only [List.map_cons, ih]
      rfl

namespace Progress

variable {rest : List BatchItem}

-- The staged jobs can be inserted, unless a key is taken.
theorem insertable (h : Progress t user v₀ batchId now items flushed pending cache staged v)
    (hok : Acceptable user v₀ items) (hitems : items = flushed ++ pending ++ rest) :
    Insertable v user.id staged := by
  have hmem : ∀ job ∈ staged, ∃ d ∈ pending, JobFor user v₀ batchId now items d job := by
    intro job hjob
    obtain ⟨before, after, rfl⟩ := List.append_of_mem hjob
    obtain ⟨before', d, after', rfl, -, hd⟩ := forall₂_split_right h.staged
    exact ⟨d, by simp, hd⟩
  have hin : ∀ d ∈ pending, d ∈ items := fun d hd => by
    rw [hitems]
    simp [hd]
  have hdistinct := hok.distinctJobs
  rw [hitems, List.append_assoc, List.map_append, List.map_append] at hdistinct
  refine ⟨fun job hjob hkey => ?_, ?_, fun job hjob => ?_, fun job hjob => ?_⟩
  · obtain ⟨d, hd, q, -, rfl⟩ := hmem job hjob
    rcases h.keys _ hkey with hold | ⟨d', hd', heq⟩ | ⟨d', -, heq⟩
    · exact hok.freshJobs d (hin d hd) hold
    · have hid : d.jobId = d'.jobId := Key.job.inj heq
      refine (List.disjoint_of_nodup_append hdistinct) (List.mem_map_of_mem hd') ?_
      rw [← hid]
      exact List.mem_append_left _ (List.mem_map_of_mem hd)
    · cases heq
  · rw [jobFor_ids h.staged]
    exact (List.nodup_append.mp (List.nodup_append.mp hdistinct).2.1).1
  · obtain ⟨d, -, q, -, rfl⟩ := hmem job hjob
    rfl
  · obtain ⟨d, hd, hjobFor⟩ := hmem job hjob
    exact hjobFor.checks hok (hin d hd)

theorem job_withJobs_ne {jobs : List Job} {id : JobId} (h : id ∉ jobs.map Job.id) :
    (v.withJobs t jobs).job id = v.job id := by
  induction jobs generalizing v with
  | nil => rfl
  | cons job jobs ih =>
      rw [List.map_cons, List.mem_cons, not_or] at h
      rw [withJobs_cons, ih h.2]
      exact with_row_ne v (.job job.id) (.job id) (newRow t job []) (by simpa using h.1)

theorem keys_withJobs {jobs : List Job} {k : Key} (h : k ∈ (v.withJobs t jobs).keys) :
    k ∈ v.keys ∨ ∃ job ∈ jobs, k = .job job.id := by
  induction jobs generalizing v with
  | nil => exact .inl h
  | cons job jobs ih =>
      rcases ih h with h | ⟨job', hjob', rfl⟩
      · rw [Txn.View.mem_insert_keys] at h
        rcases h with h | rfl
        · exact .inl h
        · exact .inr ⟨job, List.mem_cons_self, rfl⟩
      · exact .inr ⟨job', List.mem_cons_of_mem _ hjob', rfl⟩

theorem keyed_withJobs {ownerId : UserId} {jobs : List Job} (hjobs : Insertable v ownerId jobs)
    (habsent : ∀ id, .job id ∉ v.keys → v.job id = none) (key : String) :
    Keyed (v.withJobs t jobs) ownerId key ↔
      Keyed v ownerId key ∨ ∃ job ∈ jobs, job.idempotencyKey = some key := by
  induction jobs generalizing v with
  | nil => simp [Snapshot.withJobs]
  | cons job jobs ih =>
      have hnew := habsent job.id (hjobs.fresh job List.mem_cons_self)
      have howner := hjobs.owner job List.mem_cons_self
      rw [withJobs_cons, ih hjobs.tail fun id hid => ?_, keyed_with_job hnew]
      · simp only [newRow, howner, true_and, List.mem_cons, exists_eq_or_imp, or_assoc]
      · rw [Txn.View.mem_insert_keys, not_or] at hid
        rw [Snapshot.job, with_row_ne v (.job job.id) (.job id) _ hid.2]
        exact habsent id hid.1

-- The jobs of an insertion can be seen, the others are as before.
theorem job_withJobs_self {ownerId : UserId} {jobs : List Job} (hjobs : Insertable v ownerId jobs)
    {job : Job} (hmem : job ∈ jobs) : (v.withJobs t jobs).job job.id = some (newRow t job []) := by
  induction jobs generalizing v with
  | nil => simp at hmem
  | cons first jobs ih =>
      rw [withJobs_cons]
      rcases List.mem_cons.mp hmem with rfl | hmem
      · have hnot : job.id ∉ jobs.map Job.id := (List.nodup_cons.mp hjobs.distinct).1
        rw [job_withJobs_ne hnot]
        exact Txn.View.insert_row_self _ _ _
      · exact ih hjobs.tail hmem

-- An item whose project and queue were looked up before is staged.
theorem stage_cached (h : Progress t user v₀ batchId now items flushed pending cache staged v)
    (hitems : items = flushed ++ pending ++ item :: rest)
    (hq : cache.lookup item.target = some q) :
    Progress t user v₀ batchId now items flushed (pending ++ [item]) cache
      (staged ++ [item.job user.id q batchId now]) v := by
  obtain ⟨p, hp, hnamed⟩ := h.cached item.target q hq
  have hseen : item.target ∈ (flushed ++ pending).map BatchItem.target := by
    by_contra hnot
    rw [(h.targets item.target).mpr hnot] at hq
    cases hq
  have hfor : JobFor user v₀ batchId now items item (item.job user.id q batchId now) :=
    ⟨q, queueFor_of_named hp _ hitems hnamed, rfl⟩
  constructor
  · rw [← List.append_assoc]
    exact h.resolved.found hp hnamed
  · intro target q' hq'
    obtain ⟨p', hp', hnamed'⟩ := h.cached target q' hq'
    refine ⟨p', hp', ?_⟩
    rw [← List.append_assoc]
    exact namedQueue_append hnamed' [item]
  · intro target
    rw [h.targets target, ← List.append_assoc]
    refine not_congr ⟨fun hmem => ?_, fun hmem => ?_⟩
    · rw [List.map_append]
      exact List.mem_append_left _ hmem
    rw [List.map_append, List.mem_append] at hmem
    rcases hmem with hmem | hmem
    · exact hmem
    · rw [List.map_singleton, List.mem_singleton] at hmem
      exact hmem ▸ hseen
  · exact List.rel_append h.staged (.cons hfor .nil)
  · exact h.keyed
  · exact h.clean
  · intro before d after heq hne
    rcases split_append heq with ⟨mid, hold⟩ | ⟨mid, rfl, hlast⟩
    · exact h.tail before d mid hold hne
    · cases mid with
      | nil =>
          obtain ⟨rfl, -⟩ := List.cons.inj hlast
          rwa [List.append_nil]
      | cons first mid => simp at hlast
  · intro k hk
    rcases h.keys k hk with hold | hjob | ⟨d, hd, rfl⟩
    · exact .inl hold
    · exact .inr (.inl hjob)
    · refine .inr (.inr ⟨d, ?_, rfl⟩)
      rw [← List.append_assoc]
      exact List.mem_append_left _ hd
  · exact h.rows

-- A collision among the pending items is a taken key.
theorem collision_of_taken
    (h : Progress t user v₀ batchId now items flushed pending cache staged v)
    {before after : List Job} {job : Job} (heq : staged = before ++ job :: after)
    (htaken : Taken v before job) :
    ∃ a d b, pending = a ++ d :: b ∧ Collides v₀ user.id (flushed ++ a) d := by
  obtain ⟨a, d, b, rfl, hbefore, hd⟩ := forall₂_split_right (heq ▸ h.staged)
  exact ⟨a, d, b, rfl, (taken_iff h.keyed hbefore hd).mp htaken⟩

-- A flush that succeeds.
theorem flush_all {m : Db} (h : Progress t user v₀ batchId now items flushed pending cache staged v)
    (hsees : Sees t v now m) (hok : Acceptable user v₀ items)
    (hitems : items = flushed ++ pending ++ rest)
    (hfree : ∀ before job after, staged = before ++ job :: after → ¬ Taken v before job) :
    Progress t user v₀ batchId now items (flushed ++ pending) [] cache []
      (v.withJobs t staged) := by
  have hins := h.insertable hok hitems
  constructor
  · rw [List.append_nil]
    exact h.resolved.withJobs staged
  · rw [List.append_nil]
    exact h.cached
  · rw [List.append_nil]
    exact h.targets
  · exact .nil
  · intro key
    rw [keyed_withJobs hins (fun id hid => not_mem_keys hsees hid), h.keyed, jobFor_keys h.staged]
    simp only [List.mem_append, or_and_right, exists_or, or_assoc]
  · rintro ⟨before, d, after, heq, hcollides⟩
    rcases split_append heq with ⟨mid, hold⟩ | ⟨mid, rfl, hnew⟩
    · exact h.clean ⟨before, d, mid, hold, hcollides⟩
    · obtain ⟨before', job, after', heq', hbefore, hd⟩ := forall₂_split_left (hnew ▸ h.staged)
      exact hfree before' job after' heq' ((taken_iff h.keyed hbefore hd).mpr hcollides)
  · intro before d after heq
    simp at heq
  · intro k hk
    rw [List.append_nil]
    rcases keys_withJobs hk with hk | ⟨job, hjob, rfl⟩
    · rcases h.keys k hk with hold | ⟨d, hd, rfl⟩ | hqueue
      · exact .inl hold
      · exact .inr (.inl ⟨d, List.mem_append_left _ hd, rfl⟩)
      · exact .inr (.inr hqueue)
    · have hid : job.id ∈ staged.map Job.id := List.mem_map_of_mem hjob
      rw [jobFor_ids h.staged] at hid
      obtain ⟨d, hd, hid⟩ := List.mem_map.mp hid
      exact .inr (.inl ⟨d, List.mem_append_right _ hd, by rw [hid]⟩)
  · intro d hd
    rcases List.mem_append.mp hd with hd | hd
    · obtain ⟨job, hjob, hrow⟩ := h.rows d hd
      refine ⟨job, hjob, ?_⟩
      rw [job_withJobs_ne, hrow]
      rw [jobFor_ids h.staged]
      have hdistinct := hok.distinctJobs
      rw [hitems, List.append_assoc, List.map_append, List.map_append] at hdistinct
      exact fun hmem => List.disjoint_of_nodup_append hdistinct (List.mem_map_of_mem hd)
        (List.mem_append_left _ hmem)
    · obtain ⟨before, after, rfl⟩ := List.append_of_mem hd
      obtain ⟨before', job, after', rfl, -, hjob⟩ := forall₂_split_left h.staged
      refine ⟨job, hjob, ?_⟩
      have hid : job.id = d.jobId := by
        obtain ⟨q', -, rfl⟩ := hjob
        rfl
      rw [← hid]
      exact job_withJobs_self hins (by simp)

-- The first item to name its project and queue, once everything before it is flushed.
theorem stage_new {w : Snapshot} {p : Project}
    (h : Progress t user v₀ batchId now items flushed [] cache [] v)
    (hitems : items = flushed ++ item :: rest)
    (hp : projectFor user item.data.projectId v₀ = some p)
    (hres : Resolved user v₀ (flushed ++ [item]) w)
    (hq : namedQueue user v₀ (flushed ++ [item]) p.id item.data.queue = some q)
    (hw : w = v ∨ ∃ q', w = v.with (.queue item.queueId) q') :
    Progress t user v₀ batchId now items flushed [item] ((item.target, q) :: cache)
      [item.job user.id q batchId now] w := by
  have hfor : JobFor user v₀ batchId now items item (item.job user.id q batchId now) :=
    ⟨q, queueFor_of_named hp rest (by rw [hitems, List.append_assoc]; rfl) hq, rfl⟩
  constructor
  · exact hres
  · intro target q' hq'
    rw [List.lookup_cons] at hq'
    split at hq'
    · rename_i heq
      obtain rfl := Option.some.inj hq'
      obtain rfl : target = item.target := eq_of_beq heq
      exact ⟨p, hp, hq⟩
    · obtain ⟨p', hp', hnamed'⟩ := h.cached target q' hq'
      rw [List.append_nil] at hnamed'
      exact ⟨p', hp', namedQueue_append hnamed' [item]⟩
  · intro target
    have hold := h.targets target
    rw [List.append_nil] at hold
    rw [List.lookup_cons, List.map_append, List.mem_append, not_or, ← hold]
    split
    · rename_i heq
      obtain rfl : target = item.target := eq_of_beq heq
      simp
    · rename_i hne
      have hne' : target ≠ item.target := fun heq => by simp [heq] at hne
      simp [hne']
  · exact .cons hfor .nil
  · intro key
    rcases hw with rfl | ⟨q', rfl⟩
    · exact h.keyed key
    · rw [keyed_with_queue]
      exact h.keyed key
  · exact h.clean
  · intro before d after heq hne
    cases before with
    | nil => exact absurd rfl hne
    | cons first before => simp at heq
  · intro k hk
    have hold : k ∈ v.keys ∨ k = .queue item.queueId := by
      rcases hw with rfl | ⟨q', rfl⟩
      · exact .inl hk
      · rwa [Txn.View.mem_insert_keys] at hk
    rcases hold with hk | rfl
    · rcases h.keys k hk with hold | hjob | ⟨d, hd, rfl⟩
      · exact .inl hold
      · exact .inr (.inl hjob)
      · rw [List.append_nil] at hd
        exact .inr (.inr ⟨d, List.mem_append_left _ hd, rfl⟩)
    · exact .inr (.inr ⟨item, by simp, rfl⟩)
  · intro d hd
    obtain ⟨job, hjob, hrow⟩ := h.rows d hd
    refine ⟨job, hjob, ?_⟩
    rcases hw with rfl | ⟨q', rfl⟩
    · exact hrow
    · rw [Snapshot.job, with_row_ne v (.queue item.queueId) (.job d.jobId) q' (by simp)]
      exact hrow

end Progress

-- How the loop ends: with all jobs in place, or with the error that the place of the first
-- collision decides.
inductive BatchOutcome (t : TxId) (user : SessionUser) (v₀ : Snapshot) (batchId : Nat) (now : Time)
    (items rest : List BatchItem) : Except PyError (List Job) → Db → Prop
  | staged (jobs : List Job) (w : Snapshot) (m : Db) (hsees : Sees t w now m)
      (hclean : ¬ HasCollision v₀ user.id items)
      (hjobs : List.Forall₂ (JobFor user v₀ batchId now items) rest jobs)
      (hrows : ∀ d ∈ items, ∃ job, JobFor user v₀ batchId now items d job ∧
        w.job d.jobId = some (newRow t job [])) :
      BatchOutcome t user v₀ batchId now items rest (.ok jobs) m
  | conflict (w : Snapshot) (m : Db) (hsees : Sees t w now m)
      (hcollision : HasCollision v₀ user.id items) (hlate : ¬ LateLookup v₀ user.id items) :
      BatchOutcome t user v₀ batchId now items rest (.error batchConflict) m
  | integrity (w : Snapshot) (m : Db) (hsees : Sees t w now m)
      (hlate : LateLookup v₀ user.id items) :
      BatchOutcome t user v₀ batchId now items rest (.error .integrity) m

theorem BatchOutcome.cons {rest : List BatchItem} {r : Except PyError (List Job)} {m : Db} {job : Job}
    (h : BatchOutcome t user v₀ batchId now items rest r m)
    (hjob : JobFor user v₀ batchId now items item job) :
    BatchOutcome t user v₀ batchId now items (item :: rest) (r.map (job :: ·)) m := by
  cases h with
  | staged jobs w _ hsees hclean hjobs hrows =>
      exact .staged _ w _ hsees hclean (.cons hjob hjobs) hrows
  | conflict w _ hsees hcollision hlate => exact .conflict w _ hsees hcollision hlate
  | integrity w _ hsees hlate => exact .integrity w _ hsees hlate

-- When the last flush is refused nothing behind the collision was the first of its target.
theorem Progress.not_late
    (h : Progress t user v₀ batchId now items flushed pending cache staged v)
    (hitems : items = flushed ++ pending) : ¬ LateLookup v₀ user.id items := by
  rintro ⟨before, d, between, late, after, heq, hcollides, hnew⟩
  rw [hitems] at heq
  rcases split_append heq with ⟨mid, hold⟩ | ⟨mid, rfl, hpending⟩
  · exact h.clean ⟨before, d, mid, hold, hcollides⟩
  · have hseen := h.tail (mid ++ d :: between) late after (by rw [hpending]; simp) (by simp)
    rw [← List.append_assoc] at hseen
    exact hnew hseen

theorem runs_stageItems (hok : Acceptable user v₀ items) (hstored : ∀ item ∈ items, Stored item)
    (rest : List BatchItem)
    (h : Progress t user v₀ batchId now items flushed pending cache staged v)
    (hitems : items = flushed ++ pending ++ rest) :
    Runs t (Sees t v now) (stageItems t user batchId now rest cache staged true)
      fun r m => BatchOutcome t user v₀ batchId now items rest r m := by
  induction rest generalizing flushed pending cache staged v with
  | nil =>
      intro m₀ hsees₀
      have hflushed := h.flush_all hsees₀ hok hitems
      obtain ⟨ok, m, hrun, hflush⟩ := runs_flush (h.insertable hok hitems) m₀ hsees₀
      rw [List.append_nil] at hitems
      rcases hflush with ⟨rfl, hsees, hfree⟩ | ⟨rfl, ⟨w, hsees⟩, before, job, after, heq, htaken⟩
      · have hdone := hflushed hfree
        rw [← hitems] at hdone
        refine ⟨.ok [], m, ?_, .staged [] _ m hsees hdone.clean .nil hdone.rows⟩
        simp [stageItems, Txn.Prog.run_bind, hrun, Txn.Prog.run]
      · obtain ⟨a, d, b, rfl, hcollides⟩ := h.collision_of_taken heq htaken
        refine ⟨.error batchConflict, m, ?_,
          .conflict w m hsees ⟨flushed ++ a, d, b, ?_, hcollides⟩ (h.not_late hitems)⟩
        · simp [stageItems, Txn.Prog.run_bind, hrun, Txn.Prog.run]
        · rw [hitems, List.append_assoc]
  | cons item rest ih =>
      have hmem : item ∈ items := by
        rw [hitems]
        simp
      obtain ⟨p, hp⟩ := Option.ne_none_iff_exists'.mp (hok.projects item hmem)
      cases hcache : cache.lookup item.target with
      | some q =>
          have hnext := h.stage_cached hitems hcache
          have hrest := ih hnext (by rw [hitems]; simp)
          obtain ⟨p', hp', hnamed⟩ := h.cached item.target q hcache
          have hfor : JobFor user v₀ batchId now items item (item.job user.id q batchId now) :=
            ⟨q, queueFor_of_named hp' _ hitems hnamed, rfl⟩
          rw [stageItems, hcache]
          dsimp only
          rw [Bool.true_and, (hstored item hmem).1]
          exact .bind hrest fun r => .pure fun m hr => hr.cons hfor
      | none =>
          refine .assuming (φ := ∃ m, Sees t v now m) (fun m hsees => ⟨m, hsees⟩) fun hsome => ?_
          obtain ⟨m₀, hsees₀⟩ := hsome
          rw [stageItems, hcache]
          dsimp only
          rw [if_pos rfl, (hstored item hmem).1]
          refine .bind (runs_flush (h.insertable hok hitems)) fun ok => ?_
          cases ok with
          | true =>
              rw [if_pos rfl]
              have hpassed {p q : Prop} (hflush : p ∨ (true = false ∧ q)) : p :=
                hflush.resolve_right fun hno => absurd hno.1.symm Bool.false_ne_true
              refine .assuming (fun m hflush => (hpassed hflush).2.2) fun hfree => ?_
              have hdone := h.flush_all hsees₀ hok hitems hfree
              have hnew : .queue item.queueId ∉ (v.withJobs t staged).keys := by
                intro hkey
                rcases hdone.keys _ hkey with hold | ⟨d, -, heq⟩ | ⟨d, hd, heq⟩
                · exact hok.freshQueues item hmem hold
                · cases heq
                · have hdistinct := hok.distinctQueues
                  rw [hitems, List.map_append, List.map_cons] at hdistinct
                  rw [List.append_nil] at hd
                  refine List.disjoint_of_nodup_append hdistinct (List.mem_map_of_mem hd) ?_
                  rw [← Key.queue.inj heq]
                  exact List.mem_cons_self
              have hresolved := hdone.resolved
              rw [List.append_nil] at hresolved
              refine .bind ((runs_resolveTarget hresolved hp (hstored item hmem).2 hnew).pre
                fun m hflush => (hpassed hflush).2.1) fun r => ?_
              rintro m ⟨q, w, rfl, hsees, hres, hnamed, hw⟩
              have hnext := hdone.stage_new hitems hp hres hnamed hw
              have hfor : JobFor user v₀ batchId now items item (item.job user.id q batchId now) :=
                ⟨q, queueFor_of_named hp rest (by rw [hitems]; simp) hnamed, rfl⟩
              exact Runs.bind (ih hnext (by rw [hitems]; simp))
                (fun r => .pure (Q := fun r m =>
                  BatchOutcome t user v₀ batchId now items (item :: rest) r m)
                  fun m hr => hr.cons hfor) m hsees
          | false =>
              rw [if_neg Bool.false_ne_true]
              refine .pure fun m hflush => ?_
              obtain ⟨-, ⟨w, hsees⟩, before, job, after, heq, htaken⟩ :=
                hflush.resolve_left fun hok => absurd hok.1 Bool.false_ne_true
              obtain ⟨a, d, b, rfl, hcollides⟩ := h.collision_of_taken heq htaken
              refine .integrity w m hsees ⟨flushed ++ a, d, b, item, rest, ?_, hcollides, ?_⟩
              · rw [hitems]
                simp
              · have hnot := (h.targets item.target).mp hcache
                rwa [List.append_assoc]

end Chronos
