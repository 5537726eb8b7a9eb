import Chronos.Refinement.Batch
import Chronos.Refinement.Requests

namespace Chronos

open Txn (TxId Stable Triple stmt)

variable {cond : Conditions} {c : Call} {t : TxId} {user : SessionUser} {data : JobCreate}

section Project

theorem stable_hasProject (projectId : Option ProjectId) :
    Stable (spec cond) t fun m => HasProject m user projectId :=
  Stable.exists fun id => stable_project id fun row =>
    ∃ p, row = some p ∧ p.orgId = user.orgId ∧ ∀ i, projectId = some i → i = id

theorem At.view_project {m : Db} (hat : At cond t m) (id : ProjectId) :
    Snapshot.project (m.view t) id = (m.cell (.project id)).committed :=
  Txn.Cell.seen_of_free (hat.inv.projects id)

theorem getProject_isSome {m : Db} (hat : At cond t m) {projectId : ProjectId}
    (h : HasProject m user (some projectId)) :
    (TenancyRepository.getProject projectId user.orgId (m.view t)).isSome = true := by
  obtain ⟨id, p, hp, horg, hid⟩ := h
  obtain rfl := hid projectId rfl
  rw [TenancyRepository.getProject, hat.view_project, hp, Option.bind_some, if_pos horg,
    Option.isSome_some]

theorem defaultProject_isSome {m : Db} (hat : At cond t m) (h : HasProject m user none) :
    (TenancyRepository.defaultProject user.orgId (m.view t)).isSome = true := by
  obtain ⟨id, p, hp, horg, -⟩ := h
  have hkey : Key.project id ∈ (Txn.Store.view t m).keys := hat.wf.mem_of_committed hp
  have hids : id ∈ Snapshot.projectIds (m.view t) := List.mem_filterMap.mpr ⟨_, hkey, rfl⟩
  have hrow : p ∈ (Snapshot.projectIds (m.view t)).filterMap (Snapshot.project (m.view t)) :=
    List.mem_filterMap.mpr ⟨id, hids, (hat.view_project id).trans hp⟩
  rw [TenancyRepository.defaultProject, List.isSome_head?]
  exact List.ne_nil_of_mem ((List.perm_insertionSort _ _).mem_iff.mpr
    (List.mem_filter.mpr ⟨hrow, by simpa using horg⟩))

theorem triple_resolveProject {P : Db → Prop} {φ : Prop} {projectId : Option ProjectId}
    (hst : Stable (spec cond) t P) (hfound : ∀ m, P m → φ → HasProject m user projectId) :
    Triple (spec cond) c t P (JobService.resolveProject user projectId)
      fun r m => P m ∧ (φ → ∃ project, r = .ok project) := by
  have hlookup : ∀ {query : Snapshot → Option Project} {err : PyError}
      {next : Option Project → Tx (Except PyError Project)},
      next none = pure (.error err) → (∀ project, next (some project) = pure (.ok project)) →
      (∀ m, At cond t m → HasProject m user projectId → (query (m.view t)).isSome = true) →
      Triple (spec cond) c t P (select query >>= next)
        fun r m => P m ∧ (φ → ∃ project, r = .ok project) := by
    intro query err next hnone hsome hquery
    refine .bind (spec_sound cond) (triple_select (R := fun r m => P m ∧ (φ → r.isSome = true)) hst
      (fun r => hst.and (Stable.const _)) fun m hat h =>
        ⟨h, fun hφ => hquery m hat (hfound m h hφ)⟩) fun r => ?_
    cases r with
    | none =>
        rw [hnone]
        exact .pure (hst.and (Stable.const _)) fun m h =>
          ⟨h.1, fun hφ => absurd (h.2 hφ) Bool.false_ne_true⟩
    | some project =>
        rw [hsome]
        exact .pure (hst.and (Stable.const _)) fun m h => ⟨h.1, fun _ => ⟨_, rfl⟩⟩
  cases projectId with
  | none => exact hlookup rfl (fun _ => rfl) fun m hat h => defaultProject_isSome hat h
  | some id => exact hlookup rfl (fun _ => rfl) fun m hat h => getProject_isSome hat h

end Project

section Prepare

-- The calls a result about keys is about.
def Exclusive (cond : Conditions) (user : SessionUser) (data : JobCreate) : Prop :=
  ∃ key, data.idempotencyKey = some key ∧ cond.exclusive user.id key

-- What an enqueue call can rely on until it flushes its job.
structure Preparing (cond : Conditions) (t : TxId) (user : SessionUser) (data : JobCreate)
    (m : Db) : Prop where
  noJobs : NoJobs t m
  fresh : Unrecorded t m
  valid : Exclusive cond user data → ValidBody m user data

theorem stable_validBody : Stable (spec cond) t fun m => ValidBody m user data :=
  fun m m' hwf hinv hi h =>
    ⟨h.stored, h.queue, stable_hasProject data.projectId m m' hwf hinv hi h.project,
      fun d hd => Stable.entry (lasting_ownerId user.id) d m m' hwf hinv hi (h.deps d hd), h.nodup⟩

theorem stable_preparing : Stable (spec cond) t (Preparing cond t user data) :=
  fun m m' hwf hinv hi h =>
    ⟨stable_noJobs m m' hwf hinv hi h.noJobs, stable_unrecorded m m' hwf hinv hi h.fresh,
      fun hex => stable_validBody m m' hwf hinv hi (h.valid hex)⟩

theorem Preparing.insert_queue {m : Db} (h : Preparing cond t user data m) (id : QueueId)
    (row : Queue) : Preparing cond t user data (m.insert t (.queue id) row) where
  noJobs := h.noJobs.insert (k := .queue id) row fun _ => by simp
  fresh := by
    intro id' e he
    rw [committedJob, Txn.Store.insert_cell, Txn.Store.own_committed] at he
    exact h.fresh id' e he
  valid hex := by
    obtain ⟨hstored, hqueue, hproject, hdeps, hnodup⟩ := h.valid hex
    refine ⟨hstored, hqueue, ?_, fun d hd => ?_, hnodup⟩
    · simpa only [HasProject, Txn.Store.insert_cell, Txn.Store.own_committed] using hproject
    · rw [committedJob, Txn.Store.insert_cell, Txn.Store.own_committed]
      exact hdeps d hd

theorem mem_getByName {v : Snapshot} {projectId : ProjectId} {name : String} {q : Queue}
    (h : QueueRepository.getByName projectId name v = some q) : ∃ id, v.queue id = some q := by
  obtain ⟨id, -, hq⟩ := List.mem_filterMap.mp (List.mem_of_find?_eq_some h)
  exact ⟨id, hq⟩

theorem getByName_isSome {m : Db} (hat : At cond t m) {id : QueueId} {q : Queue}
    (hq : committedQueue m id = some q) :
    (QueueRepository.getByName q.projectId q.name (m.view t)).isSome = true := by
  have hseen : ∃ row, (m.cell (.queue id)).seen t = some row := by
    cases hp : (m.cell (.queue id)).pending with
    | none => exact ⟨q, (Txn.Cell.seen_of_free hp).trans hq⟩
    | some p =>
        obtain ⟨s, v⟩ := p
        by_cases hs : s = t
        · subst hs
          exact ⟨v, Txn.Cell.seen_of_held hp⟩
        · exact ⟨q, (Txn.Cell.seen_of_other hp hs).trans hq⟩
  obtain ⟨row, hrow⟩ := hseen
  obtain ⟨hproject, hname⟩ := hat.inv.sameName_seen hq hrow
  have hkey : Key.queue id ∈ (Txn.Store.view t m).keys := hat.wf.mem_of_committed hq
  rw [QueueRepository.getByName, List.find?_isSome]
  exact ⟨row, List.mem_filterMap.mpr ⟨id, List.mem_filterMap.mpr ⟨_, hkey, rfl⟩, hrow⟩,
    by simpa using ⟨hproject, hname⟩⟩

-- An insert that the index on names refuses finds the queue that has the name.
theorem committedQueue_of_clash {m : Db} (hfree : Unlocked t m) {queue : Queue}
    (h : Txn.insertClashes t (uqQueuesProjectName queue) m = true) :
    ∃ id q, committedQueue m id = some q ∧ q.projectId = queue.projectId ∧ q.name = queue.name := by
  obtain ⟨k, -, hk⟩ := List.any_eq_true.mp h
  obtain ⟨row, hrow, hclash⟩ := (Option.any_eq_true _ _).mp hk
  cases k with
  | queue id =>
      rw [uqQueuesProjectName, decide_eq_true_eq] at hclash
      exact ⟨id, row, (hfree.seen _).symm.trans hrow, hclash⟩
  | _ => cases hclash

theorem triple_resolveQueue (id : QueueId) (project : Project) (name : String) :
    Triple (spec cond) c t (fun m => Unlocked t m ∧ Preparing cond t user data m)
      (JobService.resolveQueue id project name)
      fun r m => (storableText name = true → ∃ queue, r = .ok queue) ∧
        (∀ queue, r = .ok queue → queue.checks = true) ∧ Preparing cond t user data m := by
  have hsound := spec_sound cond
  have hst : Stable (spec cond) t fun m => Unlocked t m ∧ Preparing cond t user data m :=
    stable_unlocked.and stable_preparing
  have hdone : ∀ (p : Prop) (queue : Queue), Triple (spec cond) c t
      (fun m => (queue.checks = true ∧ p) ∧ Preparing cond t user data m)
      (pure (Except.ok (ε := PyError) queue))
      fun r m => (storableText name = true → ∃ queue, r = Except.ok queue) ∧
        (∀ queue, r = .ok queue → queue.checks = true) ∧ Preparing cond t user data m :=
    fun p queue => .pure ((Stable.const _).and stable_preparing) fun m h =>
      ⟨fun _ => ⟨queue, rfl⟩, fun q hq => Except.ok.inj hq ▸ h.1.1, h.2⟩
  have hseen : ∀ m, At cond t m → ∀ q, QueueRepository.getByName project.id name (m.view t) =
      some q → q.checks = true := by
    intro m hat q hq
    obtain ⟨i, hi⟩ := mem_getByName hq
    exact hat.inv.queues i q (queueVersion_of_seen hi)
  unfold JobService.resolveQueue
  by_cases hname : storableText name = true
  swap
  · rw [if_neg hname]
    refine .pure hst fun m h => ⟨fun h => absurd h hname, fun queue hq => ?_, h.2⟩
    cases hq
  rw [if_pos hname]
  refine .bind hsound (triple_select (R := fun r m => (∀ q, r = some q → q.checks = true) ∧
    Unlocked t m ∧ Preparing cond t user data m) hst (fun r => (Stable.const _).and hst)
    fun m hat h => ⟨hseen m hat, h⟩) fun r => ?_
  cases r with
  | some queue => exact (hdone True queue).pre fun m _ _ _ _ h => ⟨⟨h.1 queue rfl, trivial⟩, h.2.2⟩
  | none =>
      refine .bind hsound ((triple_insert (R := fun ok m => (ok = false → ∃ i q,
        committedQueue m i = some q ∧ q.projectId = project.id ∧ q.name = name) ∧
          Preparing cond t user data m) hst (fun ok => (Stable.imp
            (stable_queueNamed project.id name)).and stable_preparing) ?_ ?_).pre
              fun m _ _ _ _ h => h.2) fun ok => ?_
      · intro m hat h _ hclash _
        exact ⟨fun _ => committedQueue_of_clash h.1 hclash, h.2⟩
      · intro m hat h hk _ _ _
        refine ⟨.own_queue (Queue.fresh_checks id project.id name) fun q hq => ?_,
          fun h => absurd h.symm Bool.false_ne_true, h.2.insert_queue id _⟩
        rw [committedQueue, hat.wf.absent _ hk] at hq
        cases hq
      · cases ok with
        | true =>
            exact (hdone True _).pre fun m _ _ _ _ h =>
              ⟨⟨Queue.fresh_checks id project.id name, trivial⟩, h.2⟩
        | false =>
            refine .bind hsound (triple_select (R := fun r m =>
              ((∀ q, r = some q → q.checks = true) ∧ r.isSome = true) ∧ Preparing cond t user data m)
              ((Stable.imp (stable_queueNamed project.id name)).and stable_preparing)
              (fun r => (Stable.const _).and stable_preparing) fun m hat h => ?_) fun r => ?_
            · obtain ⟨i, q, hq, hproject, hnamed⟩ := h.1 rfl
              exact ⟨⟨hseen m hat, hproject ▸ hnamed ▸ getByName_isSome hat hq⟩, h.2⟩
            · cases r with
              | none => exact Triple.assuming (fun m h => h.1.2) fun h => absurd h Bool.false_ne_true
              | some queue =>
                  exact (hdone True queue).pre fun m _ _ _ _ h => ⟨⟨h.1.1 queue rfl, trivial⟩, h.2⟩

theorem triple_checkDependencies (deps found : List JobId) (workflowId : Option Nat)
    (hsub : deps ⊆ data.dependsOn) (hall : data.dependsOn ⊆ found ++ deps) :
    Triple (spec cond) c t
      (fun m => (∀ d ∈ found, ∃ e, committedJob m d = some e ∧ e.job.ownerId = user.id) ∧
        Preparing cond t user data m)
      (JobService.checkDependencies user.id deps workflowId)
      fun r m => (Exclusive cond user data → ∃ w, r = .ok w) ∧
        (∀ w, r = .ok w → ∀ d ∈ data.dependsOn,
          ∃ e, committedJob m d = some e ∧ e.job.ownerId = user.id) ∧
          Preparing cond t user data m := by
  have hsound := spec_sound cond
  have hst : ∀ found : List JobId, Stable (spec cond) t fun m =>
      (∀ d ∈ found, ∃ e, committedJob m d = some e ∧ e.job.ownerId = user.id) ∧
        Preparing cond t user data m :=
    fun found => (Stable.all fun d => Stable.imp (Stable.entry (lasting_ownerId user.id) d)).and
      stable_preparing
  have hstdep : ∀ dep : JobId, Stable (spec cond) t fun m =>
      ∃ e, committedJob m dep = some e ∧ e.job.ownerId = user.id :=
    fun dep => Stable.entry (lasting_ownerId user.id) dep
  induction deps generalizing found workflowId with
  | nil =>
      rw [List.append_nil] at hall
      exact .pure (hst found) fun m h =>
        ⟨fun _ => ⟨workflowId, rfl⟩, fun _ _ d hd => h.1 d (hall hd), h.2⟩
  | cons dep deps ih =>
      have hdep : dep ∈ data.dependsOn := hsub List.mem_cons_self
      refine .bind hsound (triple_select (R := fun r m =>
        ((Exclusive cond user data → r.isSome = true) ∧
          (r.isSome = true → ∃ e, committedJob m dep = some e ∧ e.job.ownerId = user.id)) ∧
            (∀ d ∈ found, ∃ e, committedJob m d = some e ∧ e.job.ownerId = user.id) ∧
              Preparing cond t user data m)
        (hst found) (fun r => ((Stable.const _).and (Stable.imp (hstdep dep))).and
          (hst found)) fun m hat h => ?_) fun r => ?_
      · have hview : Snapshot.job (m.view t) dep = committedJob m dep := h.2.noJobs.seen dep
        rw [JobRepository.getForOwner, hview]
        refine ⟨⟨fun hex => ?_, fun hsome => ?_⟩, h⟩
        · obtain ⟨e, he, howner⟩ := (h.2.valid hex).deps dep hdep
          rw [he, Option.bind_some, if_pos howner, Option.isSome_some]
        · cases he : committedJob m dep with
          | none =>
              rw [he] at hsome
              cases hsome
          | some e =>
              rw [he, Option.bind_some] at hsome
              by_cases howner : e.job.ownerId = user.id
              · exact ⟨e, rfl, howner⟩
              · rw [if_neg howner] at hsome
                cases hsome
      · cases r with
        | none =>
            exact .pure (((Stable.const _).and (Stable.imp (hstdep dep))).and
              (hst found)) fun m h => ⟨fun hex => absurd (h.1.1 hex) (by simp), nofun, h.2.2⟩
        | some job =>
            refine (ih (dep :: found) (job.workflowId <|> workflowId)
              (fun d hd => hsub (List.mem_cons_of_mem _ hd)) fun d hd => ?_).pre
                fun m _ _ _ _ h => ⟨fun d hd => ?_, h.2.2⟩
            · have hmem := hall hd
              simp only [List.mem_append, List.mem_cons] at hmem ⊢
              tauto
            · rcases List.mem_cons.mp hd with rfl | hd
              · exact h.1.2 rfl
              · exact h.2.1 d hd

end Prepare

section Insert

variable {ids : FreshIds} {queue : Queue} {workflowId : Option Nat} {now : Time}

theorem getD_of_all {α : Type} {p : α → Bool} {o : Option α} {d : α} (ho : o.all p = true)
    (hd : p d = true) : p (o.getD d) = true := by
  cases o with
  | none => exact hd
  | some a => exact ho

-- A job takes each policy field from an accepted body or from its queue, so it passes its checks.
theorem buildJob_checks (id : JobId) (ownerId : UserId) (workflowId : Option Nat) (now : Time)
    (hdata : data.accepted = true) (hqueue : queue.checks = true) :
    (JobService.buildJob id ownerId queue data workflowId now).checks = true := by
  simp only [JobCreate.accepted, decide_eq_true_eq] at hdata
  simp only [Queue.checks, decide_eq_true_eq] at hqueue
  obtain ⟨-, -, -, -, -, hpriority, hmax, htimeout, hbase, hfactor, hceil, -⟩ := hdata
  obtain ⟨-, qmax, qmax', qpri, qpri', qbase, qbase', qfac, qfac', qceil, qceil', qtime, qtime'⟩ :=
    hqueue
  have h₁ := getD_of_all hmax (d := queue.defaultMaxAttempts) (by simp [qmax, qmax'])
  have h₂ := getD_of_all hpriority (d := queue.defaultPriority) (by simp [qpri, qpri'])
  have h₃ := getD_of_all hbase (d := queue.defaultBackoffBaseSeconds) (by simp [qbase, qbase'])
  have h₄ := getD_of_all hfactor (d := queue.defaultBackoffFactor) (by simp [qfac, qfac'])
  have h₅ := getD_of_all hceil (d := queue.defaultBackoffMaxSeconds) (by simp [qceil, qceil'])
  have h₆ := getD_of_all htimeout (d := queue.defaultTimeoutSeconds) (by simp [qtime, qtime'])
  simp only [decide_eq_true_eq] at h₁ h₂ h₃ h₄ h₅ h₆
  rw [Job.checks, decide_eq_true_eq]
  exact ⟨h₁.1, h₁.2, h₂.1, h₂.2, h₃.1, h₃.2, h₄.1, h₄.2, h₅.1, h₅.2, h₆.1, h₆.2⟩

-- The row a call inserts, before and after its dependencies.
def newRow (t : TxId) (job : Job) (dependsOn : List JobId) : JobEntry :=
  { job := job, attempts := [], dependsOn := dependsOn, log := [.created t] }

theorem newRow_ok {job : Job} (hjob : job = JobService.buildJob ids.job user.id queue data workflowId now)
    (hchecks : job.checks = true) (dependsOn : List JobId) : (newRow t job dependsOn).Ok where
  row := by
    subst hjob
    constructor <;> simp [newRow, JobService.buildJob]
  coherent := by
    subst hjob
    exact ⟨List.isChain_singleton _, rfl, nofun⟩
  checks := hchecks

-- The new job is all that the transaction has locked of jobs.
def Inserted (t : TxId) (id : JobId) (row : JobEntry) (m : Db) : Prop :=
  (∃ e, pendingJob m id = some (t, e) ∧ committedJob m id = none ∧ e = row) ∧
    ∀ id' e, pendingJob m id' = some (t, e) → id' = id

theorem stable_inserted (id : JobId) (row : JobEntry) :
    Stable (spec cond) t (Inserted t id row) :=
  (stable_holds id fun base e => base = none ∧ e = row).and
    (Stable.all fun id' => stable_held id' fun _ _ => id' = id)

-- The index on keys refuses nothing that no committed or pending job clashes with.
theorem not_sameKey_of_insert {m : Db} (hwf : m.WF) (hfree : NoJobs t m) {job : Job}
    (hclash : Txn.insertClashes t (uqJobsOwnerIdempotency job) m = false)
    (hwait : Txn.insertWaits (uqJobsOwnerIdempotency job) m = false) {id : JobId} {e row : JobEntry}
    (hv : Version m id e) (hrow : row.job = job) : ¬ e.SameKey row := by
  intro hkey
  have hmatch : uqJobsOwnerIdempotency job (.job id) e = true := by
    have hsome := hkey.symm.some
    have howner := hkey.owner
    have hk := hkey.key
    rw [hrow] at hsome howner hk
    simp [uqJobsOwnerIdempotency, hsome, howner, hk]
  rcases hv with he | ⟨s, hp⟩
  · rw [Txn.insertClashes, List.any_eq_false] at hclash
    refine hclash (.job id) (hwf.mem_of_committed he) ?_
    rw [hfree.seen, he]
    exact hmatch
  · rw [Txn.insertWaits, List.any_eq_false] at hwait
    have hkeys : Key.job id ∈ m.keys := by
      by_contra hk
      rw [pendingJob, hwf.absent _ hk] at hp
      cases hp
    refine hwait (.job id) hkeys ?_
    rw [pendingJob] at hp
    rw [hp]
    exact hmatch

-- What the index refuses is a second job with the key.
theorem hasKey_of_clash {m : Db} (hfree : NoJobs t m) {job : Job} {key : String}
    (hkey : job.idempotencyKey = some key)
    (h : Txn.insertClashes t (uqJobsOwnerIdempotency job) m = true) :
    ∃ id e, committedJob m id = some e ∧ HasKey job.ownerId key e := by
  obtain ⟨k, -, hk⟩ := List.any_eq_true.mp h
  obtain ⟨row, hrow, hclash⟩ := (Option.any_eq_true _ _).mp hk
  cases k with
  | job id =>
      rw [uqJobsOwnerIdempotency, decide_eq_true_eq] at hclash
      exact ⟨id, row, (hfree.seen id).symm.trans hrow, hclash.2.1, hclash.2.2.trans hkey⟩
  | _ => cases hclash

-- What an insert leaves when it succeeds.
def Flushed (t : TxId) (user : SessionUser) (data : JobCreate) (id : JobId) (m : Db) : Prop :=
  ∃ e, committedJob m id = some e ∧
    (e.job.ownerId = user.id ∧ ∀ key, data.idempotencyKey = some key → HasKey user.id key e) ∧
      .created t ∈ e.log

theorem stable_flushed (id : JobId) : Stable (spec cond) t (Flushed t user data id) := by
  refine Stable.entry (Lasting.and ((lasting_ownerId user.id).and ?_) (lasting_mem_log _)) id
  intro c s m op e e' hs hok heff h key hkey
  exact lasting_hasKey user.id key c s m op e e' hs hok heff (h key hkey)

-- The targets of the dependencies are there, and the caller's.
def DepsOwned (user : SessionUser) (data : JobCreate) (m : Db) : Prop :=
  ∀ d ∈ data.dependsOn, ∃ e, committedJob m d = some e ∧ e.job.ownerId = user.id

theorem stable_depsOwned : Stable (spec cond) t (DepsOwned user data) :=
  Stable.all fun d => Stable.imp (Stable.entry (lasting_ownerId user.id) d)

theorem Inserted.of_insert {m : Db} (hwf : m.WF) (hfree : NoJobs t m) {id : JobId}
    (hk : Key.job id ∉ m.keys) (row : JobEntry) :
    Inserted t id row (m.insert t (.job id) row) := by
  refine ⟨⟨row, ?_, ?_, rfl⟩, fun id' e hp => ?_⟩
  · rw [pendingJob, Txn.Store.insert_cell, Txn.Store.own_cell_self]
  · rw [committedJob, Txn.Store.insert_cell, Txn.Store.own_committed, hwf.absent _ hk]
    rfl
  · by_contra hne
    rw [pendingJob, Txn.Store.insert_cell,
      Txn.Store.own_cell_ne t _ _ m (by simpa using hne)] at hp
    exact hfree id' e hp

theorem Inserted.own {m : Db} {id : JobId} {row : JobEntry} (h : Inserted t id row m)
    (row' : JobEntry) : Inserted t id row' (m.own t (.job id) row') := by
  obtain ⟨⟨d, -, hnone, -⟩, honly⟩ := h
  refine ⟨⟨row', ?_, ?_, rfl⟩, fun id' e hp => ?_⟩
  · rw [pendingJob, Txn.Store.own_cell_self]
  · rwa [committedJob, Txn.Store.own_committed]
  · by_contra hne
    rw [pendingJob, Txn.Store.own_cell_ne t _ _ m (by simpa using hne)] at hp
    exact hne (honly id' e hp)

section Steps

variable {job : Job}

-- The INSERT: refused only a key that another job has.
theorem triple_insertJobRow
    (hjob : job = JobService.buildJob ids.job user.id queue data workflowId now) :
    Triple (spec cond) (.enqueue user data ids) t
      (fun m => DepsOwned user data m ∧ Preparing cond t user data m)
      (insertEntry ids.job (newRow t job []) (uqJobsOwnerIdempotency job))
      fun ok m => (ok = false → ¬ Exclusive cond user data) ∧ (ok = true →
        ((Exclusive cond user data → data.dependsOn.Nodup) ∧ DepsOwned user data m) ∧
          Inserted t ids.job (newRow t job []) m) := by
  refine triple_insert (stable_depsOwned.and stable_preparing)
    (fun ok => (Stable.const _).and (Stable.imp (((Stable.const _).and stable_depsOwned).and
      (stable_inserted ids.job _)))) ?_ ?_
  · intro m hat h _ hclash hperm
    refine ⟨?_, fun hok => absurd hok Bool.false_ne_true⟩
    rintro - ⟨key, hk, hex⟩
    have hkey : job.idempotencyKey = some key := by
      rw [hjob]
      exact hk
    have howner : job.ownerId = user.id := hjob ▸ rfl
    obtain ⟨id, e, he, hhas⟩ := hasKey_of_clash h.2.noJobs hkey hclash
    exact hperm.exclusive user data ids key rfl hk hex (.mk ids.job _ _) id e he (howner ▸ hhas)
  · intro m hat h hk hclash hwait _
    have honly : OnlyJob ids.job m (m.own t (.job ids.job) (newRow t job [])) :=
      fun id' hne => Txn.Store.own_cell_ne t _ _ m (by simpa using hne)
    have hstatus : job.status = .pending := hjob ▸ rfl
    refine ⟨.own_job (.inserted honly hstatus fun id' e hv =>
      not_sameKey_of_insert hat.wf h.2.noJobs hclash hwait hv rfl),
      fun hok => absurd hok.symm Bool.false_ne_true, fun _ => ⟨⟨?_, fun d hd => ?_⟩, ?_⟩⟩
    · exact fun hex => (h.2.valid hex).nodup
    · rw [committedJob, Txn.Store.insert_cell, Txn.Store.own_committed]
      exact h.1 d hd
    · exact .of_insert hat.wf h.2.noJobs hk _

-- add_many.
theorem triple_addMany :
    Triple (spec cond) (.enqueue user data ids) t
      (fun m => DepsOwned user data m ∧ Inserted t ids.job (newRow t job []) m)
      (writeJob ids.job fun e => { e with dependsOn := data.dependsOn })
      fun _ m => DepsOwned user data m ∧
        Inserted t ids.job (newRow t job data.dependsOn) m := by
  refine triple_writeJob (stable_depsOwned.and (stable_inserted ids.job _))
    (fun _ => stable_depsOwned.and (stable_inserted ids.job _)) ?_ ?_
  · rintro m hat ⟨-, ⟨e, hp, -⟩, -⟩ hnone
    exact absurd hp (hnone e)
  · rintro m e hat ⟨hall, hins⟩ hp -
    obtain ⟨⟨d, hd, -, rfl⟩, -⟩ := id hins
    rw [hd, Option.some.injEq, Prod.mk.injEq] at hp
    obtain rfl := hp.2
    refine ⟨?_, fun d hd => ?_, hins.own _⟩
    · exact .updated _ (Txn.Cell.seen_of_held hd) ⟨rfl, rfl, rfl, rfl, rfl⟩ fun h => h
    · rw [committedJob, Txn.Store.own_committed]
      exact hall d hd

theorem triple_commitRow
    (hjob : job = JobService.buildJob ids.job user.id queue data workflowId now)
    (hchecks : job.checks = true) (hnodup : data.dependsOn.Nodup) :
    Triple (spec cond) (.enqueue user data ids) t
      (fun m => DepsOwned user data m ∧ Inserted t ids.job (newRow t job data.dependsOn) m)
      (stmt .commit) fun _ m => Unlocked t m ∧ Flushed t user data ids.job m := by
  have hid : job.id = ids.job := hjob ▸ rfl
  have howner : job.ownerId = user.id := hjob ▸ rfl
  have hkey : job.idempotencyKey = data.idempotencyKey := hjob ▸ rfl
  have hcount : job.attemptCount = 0 := hjob ▸ rfl
  refine triple_commit (stable_depsOwned.and (stable_inserted ids.job _))
    (stable_unlocked.and (stable_flushed ids.job)) ?_ ?_
  · rintro m hat ⟨hall, ⟨d, hd, hnone, hrow⟩, honly⟩ id' e' hp
    obtain rfl := honly id' e' hp
    obtain rfl : d = e' := by
      rw [hd, Option.some.injEq, Prod.mk.injEq] at hp
      exact hp.2
    subst hrow
    refine .inr (.inr ⟨hnone, ⟨user, data, ids, rfl, howner, hkey⟩, newRow_ok hjob hchecks _, hid,
      rfl, rfl, hcount, fun d hd => ?_, hnodup⟩)
    obtain ⟨e, he, hsame⟩ := hall d hd
    exact ⟨e, he, hsame.trans howner.symm⟩
  · rintro m hat ⟨-, ⟨d, hd, hnone, hrow⟩, -⟩
    subst hrow
    exact ⟨unlocked_commit m, newRow t job data.dependsOn,
      congrArg Txn.Cell.committed (Txn.Store.commit_cell_held hd),
      ⟨howner, fun key hk => ⟨howner, hkey.trans hk⟩⟩, List.mem_cons_self⟩

end Steps

theorem triple_insertJob (hdata : data.accepted = true) (hqueue : queue.checks = true) :
    Triple (spec cond) (.enqueue user data ids) t
      (fun m => DepsOwned user data m ∧ Preparing cond t user data m)
      (JobService.insertJob t (JobService.buildJob ids.job user.id queue data workflowId now)
        data.dependsOn)
      fun ok m => (ok = false → ¬ Exclusive cond user data) ∧
        (ok = true → Unlocked t m ∧ Flushed t user data ids.job m) := by
  have hsound := spec_sound cond
  have hchecks := buildJob_checks ids.job user.id workflowId now hdata hqueue
  have hfail : Triple (spec cond) (.enqueue user data ids) t
      (fun _ => ¬ Exclusive cond user data) (pure false)
      fun ok m => (ok = false → ¬ Exclusive cond user data) ∧
        (ok = true → Unlocked t m ∧ Flushed t user data ids.job m) :=
    .pure (Stable.const _) fun m h => ⟨fun _ => h, fun hok => absurd hok Bool.false_ne_true⟩
  unfold JobService.insertJob
  rw [if_pos hchecks]
  refine .bind hsound (triple_insertJobRow rfl) fun ok => ?_
  cases ok with
  | false => exact hfail.pre fun m _ _ _ _ h => h.1 rfl
  | true =>
      rw [if_pos rfl]
      by_cases hnodup : data.dependsOn.Nodup
      · rw [if_pos hnodup]
        refine .bind hsound (triple_addMany.pre fun m _ _ _ _ h =>
          ⟨(h.2 rfl).1.2, (h.2 rfl).2⟩) fun _ => ?_
        refine .bind hsound (triple_commitRow rfl hchecks hnodup) fun _ => ?_
        exact .pure (stable_unlocked.and (stable_flushed ids.job)) fun m h =>
          ⟨fun hok => absurd hok.symm Bool.false_ne_true, fun _ => h⟩
      · rw [if_neg hnodup]
        exact hfail.pre fun m _ _ _ _ h hex => hnodup ((h.2 rfl).1.1 hex)

end Insert

section Enqueue

variable {ids : FreshIds} {now : Time}

-- What a call with an exclusive key returns: a committed job with the key, and whether the job is
-- its own.
def Enqueued (cond : Conditions) (t : TxId) (user : SessionUser) (data : JobCreate)
    (r : Except PyError (Job × Bool)) (m : Db) : Prop :=
  ∀ key, data.idempotencyKey = some key → cond.exclusive user.id key →
    ∃ job created, r = .ok (job, created) ∧ ∃ e, committedJob m job.id = some e ∧
      HasKey user.id key e ∧ (created = true → .created t ∈ e.log) ∧
        (created = false → e.Unrecorded t)

theorem stable_enqueued (r : Except PyError (Job × Bool)) :
    Stable (spec cond) t (Enqueued cond t user data r) := by
  refine Stable.all fun key => Stable.imp (Stable.imp (Stable.exists fun job =>
    Stable.exists fun created => (Stable.const _).and (Stable.entry ?_ job.id)))
  exact (lasting_hasKey user.id key).and
    ((lasting_mem_log (.created t)).imp.and lasting_unrecorded.imp)

theorem Enqueued.of_not_exclusive {r : Except PyError (Job × Bool)} {m : Db}
    (h : ¬ Exclusive cond user data) : Enqueued cond t user data r m :=
  fun key hk hex => absurd ⟨key, hk, hex⟩ h

theorem Enqueued.rollback {r : Except PyError (Job × Bool)} {m : Db}
    (h : Enqueued cond t user data r m) : Enqueued cond t user data r (m.rollback t) := by
  intro key hk hex
  obtain ⟨job, created, hr, e, he, hrest⟩ := h key hk hex
  exact ⟨job, created, hr, e, by rwa [committedJob, Txn.Store.rollback_committed], hrest⟩

-- The recovery of a call that an exclusive key does not need.
theorem triple_recover (h : ¬ Exclusive cond user data) :
    Triple (spec cond) c t (fun _ => True) (JobService.recover user data)
      (Enqueued cond t user data) := by
  have hsound := spec_sound cond
  have hdone : ∀ r, Triple (spec cond) c t (fun _ => True) (pure r) (Enqueued cond t user data) :=
    fun r => .pure (Stable.const True) fun m _ => .of_not_exclusive h
  refine .bind hsound (triple_rollback (Stable.const True) (Stable.const True) fun _ _ h => h)
    fun _ => ?_
  cases JobService.truthyKey data with
  | none => exact hdone _
  | some key =>
      dsimp only
      split
      · exact hdone _
      · refine .bind hsound (triple_select (R := fun _ _ => True) (Stable.const True)
          (fun _ => Stable.const True) fun _ _ h => h) fun existing => ?_
        cases existing <;> exact hdone _

-- What becomes of the flush.
theorem triple_created {queue : Queue} {workflowId : Option Nat} (ok : Bool) :
    Triple (spec cond) (.enqueue user data ids) t
      (fun m => (ok = false → ¬ Exclusive cond user data) ∧
        (ok = true → Unlocked t m ∧ Flushed t user data ids.job m))
      (if ok then return .ok (JobService.buildJob ids.job user.id queue data workflowId now, true)
        else JobService.recover user data)
      (Enqueued cond t user data) := by
  cases ok with
  | false =>
      refine Triple.assuming (fun m h => h.1 rfl) fun hno => ?_
      exact (triple_recover hno).pre fun m _ _ _ _ _ => trivial
  | true =>
      refine .pure ((Stable.const _).and (Stable.imp (stable_unlocked.and
        (stable_flushed ids.job)))) fun m h key hk hex => ?_
      obtain ⟨-, e, he, ⟨-, hhas⟩, hmem⟩ := h.2 rfl
      exact ⟨_, true, rfl, e, he, hhas key hk, fun _ => hmem, nofun⟩

theorem triple_create (hdata : data.accepted = true) :
    Triple (spec cond) (.enqueue user data ids) t
      (fun m => Unlocked t m ∧ Preparing cond t user data m)
      (JobService.create t user data ids now) (Enqueued cond t user data) := by
  have hsound := spec_sound cond
  have hst : Stable (spec cond) t fun m => Unlocked t m ∧ Preparing cond t user data m :=
    stable_unlocked.and stable_preparing
  refine .bind hsound (triple_resolveProject hst fun m h hex => (h.2.valid hex).project)
    fun project => ?_
  cases project with
  | error err =>
      refine .pure (hst.and (Stable.const _)) fun m h => .of_not_exclusive fun hex => ?_
      obtain ⟨project, hp⟩ := h.2 hex
      cases hp
  | ok project =>
      refine .bind hsound ((triple_resolveQueue ids.queue project data.queue).pre
        fun m _ _ _ _ h => h.1) fun r => ?_
      have hresolved : Stable (spec cond) t fun m =>
          (storableText data.queue = true → ∃ queue, r = .ok queue) ∧
            (∀ queue, r = .ok queue → queue.checks = true) ∧ Preparing cond t user data m :=
        (Stable.const _).and ((Stable.const _).and stable_preparing)
      cases r with
      | error err =>
          refine .pure hresolved fun m h => .of_not_exclusive fun hex => ?_
          obtain ⟨queue, hq⟩ := h.1 (h.2.2.valid hex).queue
          cases hq
      | ok queue =>
          refine Triple.assuming (fun m h => h.2.1 queue rfl) fun hqueue => ?_
          refine .bind hsound ((triple_checkDependencies data.dependsOn [] _ (List.Subset.refl _)
            fun d hd => hd).pre fun m _ _ _ _ h =>
              ⟨fun d hd => absurd hd List.not_mem_nil, h.2.2⟩) fun workflowId => ?_
          cases workflowId with
          | error err =>
              refine .pure ((Stable.const _).and ((Stable.all fun w =>
                Stable.imp stable_depsOwned).and stable_preparing)) fun m h =>
                  .of_not_exclusive fun hex => ?_
              obtain ⟨w, hw⟩ := h.1 hex
              cases hw
          | ok workflowId =>
              dsimp only
              by_cases hstored : data.storable = true
              · rw [if_pos hstored]
                exact .bind hsound ((triple_insertJob hdata hqueue).pre fun m _ _ _ _ h =>
                  ⟨h.2.1 workflowId rfl, h.2.2⟩) fun ok => triple_created ok
              · rw [if_neg hstored]
                refine .pure ((Stable.const _).and ((Stable.all fun w =>
                  Stable.imp stable_depsOwned).and stable_preparing)) fun m h =>
                    .of_not_exclusive fun hex => hstored (h.2.2.valid hex).stored

theorem truthyKey_eq_some {key : String} (h : JobService.truthyKey data = some key) :
    data.idempotencyKey = some key := by
  rw [JobService.truthyKey, Option.filter_eq_some_iff] at h
  exact h.1

-- The job the pre-check finds was there before the call.
theorem getByIdempotencyKey_found {m : Db} (hat : At cond t m) (hfree : NoJobs t m)
    (hfresh : Unrecorded t m) {key : String} {job : Job}
    (h : JobRepository.getByIdempotencyKey user.id key (m.view t) = some job) :
    ∃ e, committedJob m job.id = some e ∧ HasKey user.id key e ∧ e.Unrecorded t := by
  rw [JobRepository.getByIdempotencyKey, Option.map_eq_some_iff] at h
  obtain ⟨p, hp, rfl⟩ := h
  obtain ⟨-, he, hmatch⟩ := mem_jobsWhere.mp (List.mem_of_head? hp)
  rw [decide_eq_true_eq] at hmatch
  have hcommitted : committedJob m p.1 = some p.2 := (hfree.seen p.1).symm.trans he
  refine ⟨p.2, ?_, hmatch, hfresh p.1 p.2 hcommitted⟩
  rwa [hat.inv.id p.1 p.2 hcommitted]

theorem triple_preCheck :
    Triple (spec cond) c t (fun m => Unlocked t m ∧ Preparing cond t user data m)
      (JobService.preCheck user data)
      fun existing m => (Unlocked t m ∧ Preparing cond t user data m) ∧
        (∀ err, existing = .error err → ¬ Exclusive cond user data) ∧
          ∀ job, existing = .ok (some job) → Enqueued cond t user data (.ok (job, false)) m := by
  have hsound := spec_sound cond
  have hst : Stable (spec cond) t fun m => Unlocked t m ∧ Preparing cond t user data m :=
    stable_unlocked.and stable_preparing
  unfold JobService.preCheck
  split
  · rename_i key htruthy
    have hkey := truthyKey_eq_some htruthy
    have hfound (existing : Option Job) : Stable (spec cond) t fun m =>
        (Unlocked t m ∧ Preparing cond t user data m) ∧
          ∀ job, existing = some job → Enqueued cond t user data (.ok (job, false)) m :=
      hst.and (Stable.all fun job => Stable.imp (stable_enqueued _))
    by_cases hstored : storableText key = true
    · rw [if_pos hstored]
      refine .bind hsound (triple_select hst hfound fun m hat h =>
        ⟨h, fun job hjob key' hk _ => ?_⟩) fun existing => ?_
      · obtain rfl : key = key' := Option.some.inj (hkey.symm.trans hk)
        obtain ⟨e, he, hhas, hun⟩ := getByIdempotencyKey_found hat h.2.noJobs h.2.fresh hjob
        exact ⟨job, false, rfl, e, he, hhas, nofun, fun _ => hun⟩
      · refine .pure (hfound existing) fun m h => ⟨h.1, ?_, fun job hjob => ?_⟩
        · simp
        · exact h.2 job (Except.ok.inj hjob)
    · rw [if_neg hstored]
      refine .pure hst fun m h => ⟨h, fun err _ hex => hstored ?_, by simp⟩
      have hall := (h.2.valid hex).stored
      simp only [JobCreate.storable, hkey, Option.all_some, decide_eq_true_eq] at hall
      exact hall.2.2.2
  · exact .pure hst fun m h => ⟨h, by simp, by simp⟩

theorem triple_enqueue (hdata : data.accepted = true) :
    Triple (spec cond) (.enqueue user data ids) t
      (fun m => Unlocked t m ∧ Preparing cond t user data m) (JobService.enqueue t user data ids)
      fun r m => Unlocked t m ∧ Enqueued cond t user data r m := by
  have hsound := spec_sound cond
  have hexit : ∀ r, Triple (spec cond) (.enqueue user data ids) t (Enqueued cond t user data r)
      (stmt .rollback >>= fun _ => pure r)
      fun r m => Unlocked t m ∧ Enqueued cond t user data r m := by
    intro r
    have hdone : Stable (spec cond) t fun m => Unlocked t m ∧ Enqueued cond t user data r m :=
      stable_unlocked.and (stable_enqueued r)
    exact .bind hsound (triple_rollback (stable_enqueued r) hdone fun m _ h =>
      ⟨unlocked_rollback m, h.rollback⟩) fun _ => .pure hdone fun m h => h
  refine .bind hsound (triple_begin (stable_unlocked.and stable_preparing)) fun now => ?_
  refine .bind hsound triple_preCheck fun existing => ?_
  cases existing with
  | error err => exact (hexit _).pre fun m _ _ _ _ h => .of_not_exclusive (h.2.1 err rfl)
  | ok existing =>
      cases existing with
      | some job => exact (hexit _).pre fun m _ _ _ _ h => h.2.2 job rfl
      | none =>
          refine .bind hsound ((triple_create hdata).pre fun m _ _ _ _ h => h.1) fun r => ?_
          exact hexit r

end Enqueue

end Chronos
