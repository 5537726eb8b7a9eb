import Chronos.Api.Routers
import Chronos.Txn.Confined

namespace Chronos

-- The organization of every row. `tenant` names it for each id, whether or not there is a row: an
-- id is handed out once, and no row ever changes its organization.
def tenants (tenant : Key → OrgId) : Txn.Domains Key Row OrgId where
  dom := tenant
  ok
    | .user id, u => u.orgId = tenant (.user id)
    | .org id, _ => tenant (.org id) = id
    | .project id, p => p.id = id ∧ p.orgId = tenant (.project id)
    | .queue id, q => q.id = id ∧ tenant (.project q.projectId) = tenant (.queue id)
    | .job id, e => tenant (.user e.job.ownerId) = tenant (.job id) ∧
        tenant (.queue e.job.queueId) = tenant (.job id)
    | .schedule id, row => ∀ s, row = some s → tenant (.user s.ownerId) = tenant (.schedule id) ∧
        tenant (.queue s.queueId) = tenant (.schedule id)
    | .worker _, _ => True
    | .advisory _, _ => True

variable {tenant : Key → OrgId} {a b : OrgId} {v₁ v₂ : Snapshot} {ownerId : UserId}

-- Two snapshots that differ in rows of `a` only.
abbrev Alike (tenant : Key → OrgId) (a : OrgId) (v₁ v₂ : Snapshot) : Prop :=
  (tenants tenant).Alike a v₁ v₂

namespace Alike

-- A scan by the ids of one table.
theorem scanIds {ι β : Type} (h : Alike tenant a v₁ v₂) {ids : Key → Option ι} {key : ι → Key}
    {f₁ f₂ : ι → Option β} (hids : ∀ k id, ids k = some id → k = key id)
    (hsame : ∀ id, tenant (key id) ≠ a → f₁ id = f₂ id)
    (h₁ : ∀ id, tenant (key id) = a → f₁ id = none)
    (h₂ : ∀ id, tenant (key id) = a → f₂ id = none) :
    (v₁.keys.filterMap ids).filterMap f₁ = (v₂.keys.filterMap ids).filterMap f₂ := by
  rw [List.filterMap_filterMap, List.filterMap_filterMap]
  have hpass : ∀ f : ι → Option β, (∀ id, tenant (key id) = a → f id = none) →
      ∀ k, tenant k = a → (ids k).bind f = none := by
    intro f hf k hk
    cases hid : ids k with
    | none => rfl
    | some id => exact hf id (hids k id hid ▸ hk)
  refine h.scan (fun k hk => ?_) (hpass f₁ h₁) (hpass f₂ h₂)
  cases hid : ids k with
  | none => rfl
  | some id => exact hsame id (hids k id hid ▸ hk)

-- A table and the rows of it that satisfy a condition, none of them of `a`.
theorem scanRows {ι β : Type} (h : Alike tenant a v₁ v₂) {ids : Key → Option ι} {key : ι → Key}
    (row : Snapshot → ι → Option β) {P : β → Bool} (hids : ∀ k id, ids k = some id → k = key id)
    (hrow : ∀ id, v₁.row (key id) = v₂.row (key id) → row v₁ id = row v₂ id)
    (hpass : ∀ id x, tenant (key id) = a → row v₁ id = some x ∨ row v₂ id = some x → P x = false) :
    ((v₁.keys.filterMap ids).filterMap (row v₁)).filter P =
      ((v₂.keys.filterMap ids).filterMap (row v₂)).filter P := by
  have hnone : ∀ v : Snapshot, (∀ id x, tenant (key id) = a → row v id = some x → P x = false) →
      ∀ id, tenant (key id) = a → (row v id).filter P = none := by
    intro v hv id hid
    cases hx : row v id with
    | none => rfl
    | some x => simp [Option.filter, hv id x hid hx]
  rw [List.filter_filterMap, List.filter_filterMap]
  exact h.scanIds hids (fun id hid => by rw [hrow id (h.row _ hid)])
    (hnone v₁ fun id x hid hx => hpass id x hid (.inl hx))
    (hnone v₂ fun id x hid hx => hpass id x hid (.inr hx))

-- A condition on the ids that none of `a` satisfies.
theorem filterIds {ι : Type} (h : Alike tenant a v₁ v₂) {ids : Key → Option ι} {key : ι → Key}
    {P : ι → Bool} (hids : ∀ k id, ids k = some id → k = key id)
    (hpass : ∀ id, tenant (key id) = a → P id = false) :
    (v₁.keys.filterMap ids).filter P = (v₂.keys.filterMap ids).filter P := by
  have hnone : ∀ k, tenant k = a → (ids k).filter P = none := by
    intro k hk
    cases hid : ids k with
    | none => rfl
    | some id => simp [Option.filter, hpass id (hids k id hid ▸ hk)]
  rw [List.filter_filterMap, List.filter_filterMap]
  exact h.scan (fun _ _ => rfl) hnone hnone

theorem project (h : Alike tenant a v₁ v₂) {id : ProjectId} {p : Project}
    (hp : v₁.project id = some p ∨ v₂.project id = some p) :
    p.id = id ∧ p.orgId = tenant (.project id) :=
  hp.elim (h.left (.project id) p) (h.right (.project id) p)

theorem queue (h : Alike tenant a v₁ v₂) {id : QueueId} {q : Queue}
    (hq : v₁.queue id = some q ∨ v₂.queue id = some q) :
    q.id = id ∧ tenant (.project q.projectId) = tenant (.queue id) :=
  hq.elim (h.left (.queue id) q) (h.right (.queue id) q)

theorem job (h : Alike tenant a v₁ v₂) {id : JobId} {e : JobEntry}
    (he : v₁.job id = some e ∨ v₂.job id = some e) :
    tenant (.user e.job.ownerId) = tenant (.job id) ∧
      tenant (.queue e.job.queueId) = tenant (.job id) :=
  he.elim (h.left (.job id) e) (h.right (.job id) e)

theorem schedule (h : Alike tenant a v₁ v₂) {id : ScheduleId} {s : Schedule}
    (hs : v₁.schedule id = some s ∨ v₂.schedule id = some s) :
    tenant (.user s.ownerId) = tenant (.schedule id) ∧
      tenant (.queue s.queueId) = tenant (.schedule id) := by
  cases hs with
  | inl hs => exact h.left (.schedule id) (some s) (Option.join_eq_some_iff.mp hs) s rfl
  | inr hs => exact h.right (.schedule id) (some s) (Option.join_eq_some_iff.mp hs) s rfl

end Alike

theorem projectId_eq_some (k : Key) (id : ProjectId) (h : k.projectId = some id) :
    k = .project id := by
  cases k <;> simp_all [Key.projectId]

theorem queueId_eq_some (k : Key) (id : QueueId) (h : k.queueId = some id) : k = .queue id := by
  cases k <;> simp_all [Key.queueId]

theorem jobId_eq_some (k : Key) (id : JobId) (h : k.jobId = some id) : k = .job id := by
  cases k <;> simp_all [Key.jobId]

theorem userId_eq_some (k : Key) (id : UserId) (h : k.userId = some id) : k = .user id := by
  cases k <;> simp_all [Key.userId]

theorem scheduleId_eq_some (k : Key) (id : ScheduleId) (h : k.scheduleId = some id) :
    k = .schedule id := by
  cases k <;> simp_all [Key.scheduleId]

section Queries

variable (h : Alike tenant a v₁ v₂) (ha : a ≠ b)

include h ha

theorem alike_projects :
    ((v₁.projectIds.filterMap fun id => v₁.project id).filter fun p => p.orgId = b) =
      (v₂.projectIds.filterMap fun id => v₂.project id).filter fun p => p.orgId = b := by
  refine h.scanRows Snapshot.project projectId_eq_some (fun id hrow => hrow) fun id p hid hp => ?_
  have horg := (h.project hp).2
  simp only [decide_eq_false_iff_not]
  exact fun heq => ha (hid.symm.trans (horg.symm.trans heq))

theorem alike_users :
    ((v₁.userIds.filterMap fun id => v₁.user id).filter fun u => u.orgId = b) =
      (v₂.userIds.filterMap fun id => v₂.user id).filter fun u => u.orgId = b := by
  refine h.scanRows Snapshot.user userId_eq_some (fun id hrow => hrow) fun id u hid hu => ?_
  have horg : u.orgId = tenant (.user id) := hu.elim (h.left (.user id) u) (h.right (.user id) u)
  simp only [decide_eq_false_iff_not]
  exact fun heq => ha (hid.symm.trans (horg.symm.trans heq))

theorem alike_getProject (id : ProjectId) :
    TenancyRepository.getProject id b v₁ = TenancyRepository.getProject id b v₂ ∧
      ∀ p, TenancyRepository.getProject id b v₁ = some p → tenant (.project p.id) = b := by
  refine ⟨h.lookup fun p hok hid => ?_, fun p hp => ?_⟩
  · obtain ⟨-, horg⟩ := hok
    exact if_neg fun heq => ha (hid.symm.trans (horg.symm.trans heq))
  · obtain ⟨row, hrow, hif⟩ := Option.bind_eq_some_iff.mp hp
    obtain ⟨hid, horg⟩ := h.project (.inl hrow)
    split at hif
    · rename_i heq
      obtain rfl := Option.some.inj hif
      rw [hid, ← horg, heq]
    · cases hif

theorem alike_defaultProject :
    TenancyRepository.defaultProject b v₁ = TenancyRepository.defaultProject b v₂ ∧
      ∀ p, TenancyRepository.defaultProject b v₁ = some p → tenant (.project p.id) = b := by
  refine ⟨?_, fun p hp => ?_⟩
  · simp only [TenancyRepository.defaultProject, alike_projects h ha]
  · have hmem := List.mem_of_mem_head? (Option.mem_def.mpr hp)
    rw [List.mem_insertionSort, List.mem_filter, decide_eq_true_eq] at hmem
    obtain ⟨hmem, horg⟩ := hmem
    obtain ⟨id, -, hrow⟩ := List.mem_filterMap.mp hmem
    obtain ⟨hid, heq⟩ := h.project (.inl hrow)
    rw [hid, ← heq, horg]

theorem alike_listProjects :
    TenancyRepository.listProjects b v₁ = TenancyRepository.listProjects b v₂ := by
  simp only [TenancyRepository.listProjects, alike_projects h ha]

theorem alike_listUsers : UserRepository.listForOrg b v₁ = UserRepository.listForOrg b v₂ := by
  simp only [UserRepository.listForOrg, alike_users h ha]

theorem alike_org : v₁.org b = v₂.org b := by
  have hlookup := h.lookup (f := some) fun row (horg : tenant (.org b) = b) hid =>
    absurd (hid.symm.trans horg) ha
  rw [Option.bind_fun_some, Option.bind_fun_some] at hlookup
  exact hlookup

theorem alike_getByName {projectId : ProjectId} (hproject : tenant (.project projectId) = b)
    (name : String) :
    QueueRepository.getByName projectId name v₁ = QueueRepository.getByName projectId name v₂ ∧
      ∀ q, QueueRepository.getByName projectId name v₁ = some q → tenant (.queue q.id) = b := by
  refine ⟨?_, fun q hq => ?_⟩
  · have hrows : ((v₁.queueIds.filterMap fun id => v₁.queue id).filter fun q =>
        q.projectId = projectId ∧ q.name = name) =
          (v₂.queueIds.filterMap fun id => v₂.queue id).filter fun q =>
        q.projectId = projectId ∧ q.name = name := by
      refine h.scanRows Snapshot.queue queueId_eq_some (fun id hrow => hrow) fun id q hid hq => ?_
      have hproj := (h.queue hq).2
      simp only [decide_eq_false_iff_not, not_and]
      intro heq
      exact absurd (hid.symm.trans (hproj.symm.trans (heq ▸ hproject))) ha
    simp only [QueueRepository.getByName, ← List.head?_filter, hrows]
  · have hfound := List.find?_some hq
    obtain ⟨id, -, hrow⟩ := List.mem_filterMap.mp (List.mem_of_find?_eq_some hq)
    obtain ⟨hid, hproj⟩ := h.queue (.inl hrow)
    simp only [decide_eq_true_eq] at hfound
    rw [hid, ← hproj, hfound.1, hproject]

theorem alike_getForOwner (howner : tenant (.user ownerId) = b) (id : JobId) :
    JobRepository.getForOwner id ownerId v₁ = JobRepository.getForOwner id ownerId v₂ ∧
      ∀ job, JobRepository.getForOwner id ownerId v₁ = some job → tenant (.job id) = b := by
  refine ⟨h.lookup fun e hok hid => ?_, fun job hjob => ?_⟩
  · obtain ⟨hjob, -⟩ := hok
    exact if_neg fun (heq : e.job.ownerId = ownerId) =>
      ha (hid.symm.trans (hjob.symm.trans (heq ▸ howner)))
  · obtain ⟨e, hrow, hif⟩ := Option.bind_eq_some_iff.mp hjob
    have hown := (h.job (.inl hrow)).1
    split at hif
    · rename_i heq
      rw [← hown, heq, howner]
    · cases hif

omit ha in
-- A scan of the jobs that none of `a` satisfies.
theorem alike_jobsWhere {cond : JobEntry → Bool}
    (hcond : ∀ e, tenant (.user e.job.ownerId) = a → tenant (.queue e.job.queueId) = a →
      cond e = false) : v₁.jobsWhere cond = v₂.jobsWhere cond := by
  have hpass : ∀ v : Snapshot, (∀ id e, v.job id = some e → v₁.job id = some e ∨ v₂.job id = some e) →
      ∀ id, tenant (.job id) = a →
        ((v.job id).bind fun e => if cond e then some (id, e) else none) = none := by
    intro v hv id hid
    cases he : v.job id with
    | none => rfl
    | some e =>
        obtain ⟨howner, hqueue⟩ := h.job (hv id e he)
        simp [hcond e (howner.trans hid) (hqueue.trans hid)]
  refine h.scanIds jobId_eq_some (fun id hid => ?_) (hpass v₁ fun id e => .inl)
    (hpass v₂ fun id e => .inr)
  have hrow : v₁.job id = v₂.job id := h.row (.job id) hid
  rw [hrow]

theorem alike_ownJobs (howner : tenant (.user ownerId) = b) (cond : JobEntry → Bool) :
    (v₁.jobsWhere fun e => e.job.ownerId = ownerId ∧ cond e) =
      v₂.jobsWhere fun e => e.job.ownerId = ownerId ∧ cond e := by
  refine alike_jobsWhere h fun e he _ => ?_
  simp only [decide_eq_false_iff_not, not_and]
  intro heq
  exact absurd (he.symm.trans (heq ▸ howner)) ha

theorem alike_getByIdempotencyKey (howner : tenant (.user ownerId) = b) (key : String) :
    JobRepository.getByIdempotencyKey ownerId key v₁ =
      JobRepository.getByIdempotencyKey ownerId key v₂ := by
  have hjobs := alike_ownJobs h ha howner fun e => e.job.idempotencyKey = some key
  simp only [decide_eq_true_eq] at hjobs
  simp only [JobRepository.getByIdempotencyKey, hjobs]

theorem alike_listForOwner (howner : tenant (.user ownerId) = b) (f : JobRepository.JobFilter)
    (limit offset : Nat) : JobRepository.listForOwner ownerId f limit offset v₁ =
      JobRepository.listForOwner ownerId f limit offset v₂ := by
  simp only [JobRepository.listForOwner, alike_ownJobs h ha howner fun e => f.admits e.job]

theorem alike_getForOrg (id : QueueId) :
    QueueService.getForOrg id b v₁ = QueueService.getForOrg id b v₂ ∧
      ∀ q, QueueService.getForOrg id b v₁ = some q → q.id = id ∧ tenant (.queue id) = b := by
  refine ⟨?_, fun q hq => ?_⟩
  · by_cases hid : tenant (.queue id) = a
    · have hnone : ∀ v : Snapshot, (∀ q, v.queue id = some q → v₁.queue id = some q ∨
          v₂.queue id = some q) → (∀ pid p, v.project pid = some p → v₁.project pid = some p ∨
          v₂.project pid = some p) → QueueService.getForOrg id b v = none := by
        intro v hqueue hproject
        refine Option.bind_eq_none_iff.mpr fun q hq => Option.bind_eq_none_iff.mpr fun p hp => ?_
        have hproj := (h.queue (hqueue q hq)).2
        have horg := (h.project (hproject _ p hp)).2
        exact if_neg fun heq => ha (hid.symm.trans (hproj.symm.trans (horg.symm.trans heq)))
      rw [hnone v₁ (fun _ => .inl) fun _ _ => .inl, hnone v₂ (fun _ => .inr) fun _ _ => .inr]
    · have hrow : v₁.queue id = v₂.queue id := h.row (.queue id) hid
      unfold QueueService.getForOrg
      rw [← hrow]
      cases hq : v₁.queue id with
      | none => rfl
      | some q =>
          have hproj := (h.queue (.inl hq)).2
          have hprow : v₁.project q.projectId = v₂.project q.projectId :=
            h.row (.project q.projectId) fun heq => hid (hproj.symm.trans heq)
          simp only [Option.bind_some, hprow]
  · obtain ⟨row, hrow, hbind⟩ := Option.bind_eq_some_iff.mp hq
    obtain ⟨p, hp, hif⟩ := Option.bind_eq_some_iff.mp hbind
    obtain ⟨hid, hproj⟩ := h.queue (.inl hrow)
    have horg := (h.project (.inl hp)).2
    split at hif
    · rename_i heq
      obtain rfl := Option.some.inj hif
      exact ⟨hid, by rw [← hproj, ← horg, heq]⟩
    · cases hif

theorem alike_listForOrg (projectId : Option ProjectId) (rank : QueueId → Nat) :
    QueueService.listForOrg b projectId rank v₁ = QueueService.listForOrg b projectId rank v₂ := by
  have hsome : ∀ id, QueueService.getForOrg id b v₁ = QueueService.getForOrg id b v₂ :=
    fun id => (alike_getForOrg h ha id).1
  have hown : ∀ id, (QueueService.getForOrg id b v₁).any (fun q => projectId.all fun p =>
      q.projectId = p) = true → tenant (.queue id) = b := by
    intro id hany
    obtain ⟨q, hq, -⟩ := (Option.any_eq_true _ _).mp hany
    exact ((alike_getForOrg h ha id).2 q hq).2
  have hids := h.filterIds queueId_eq_some (P := fun id => (QueueService.getForOrg id b v₁).any
    fun q => projectId.all fun p => q.projectId = p) fun id hid => by
      rw [Bool.eq_false_iff]
      exact fun hany => ha (hid.symm.trans (hown id hany))
  unfold QueueService.listForOrg
  simp only [← hsome]
  rw [show v₁.queueIds = v₁.keys.filterMap Key.queueId from rfl, hids]
  refine List.filterMap_congr fun id hid => ?_
  rw [List.mem_insertionSort, ← hids, List.mem_filter] at hid
  exact h.row (.queue id) fun heq => ha (heq.symm.trans (hown id hid.2))

theorem alike_countsByStatus (id : QueueId) (status : JobStatus) :
    QueueService.countsByStatus b id v₁ status = QueueService.countsByStatus b id v₂ status := by
  have hsome : ∀ queueId, QueueService.getForOrg queueId b v₁ = QueueService.getForOrg queueId b v₂ :=
    fun queueId => (alike_getForOrg h ha queueId).1
  unfold QueueService.countsByStatus
  simp only [← hsome]
  congr 1
  refine alike_jobsWhere h fun e _ hqueue => ?_
  simp only [decide_eq_false_iff_not, not_and]
  intro _ _ hvisible
  obtain ⟨q, hq⟩ := Option.isSome_iff_exists.mp hvisible
  exact ha (hqueue.symm.trans ((alike_getForOrg h ha _).2 q hq).2)

theorem alike_getSchedule (howner : tenant (.user ownerId) = b) (id : ScheduleId) :
    ScheduleRepository.getForOwner id ownerId v₁ = ScheduleRepository.getForOwner id ownerId v₂ ∧
      ∀ s, ScheduleRepository.getForOwner id ownerId v₁ = some s → tenant (.schedule id) = b := by
  refine ⟨?_, fun s hs => ?_⟩
  · by_cases hid : tenant (.schedule id) = a
    · have hnone : ∀ v : Snapshot, (∀ s, v.schedule id = some s → v₁.schedule id = some s ∨
          v₂.schedule id = some s) → ScheduleRepository.getForOwner id ownerId v = none := by
        intro v hv
        refine Option.bind_eq_none_iff.mpr fun s hs => if_neg fun heq => ?_
        have hown := (h.schedule (hv s hs)).1
        exact ha (hid.symm.trans (hown.symm.trans (heq ▸ howner)))
      rw [hnone v₁ fun _ => .inl, hnone v₂ fun _ => .inr]
    · have hrow : v₁.row (.schedule id) = v₂.row (.schedule id) := h.row _ hid
      simp only [ScheduleRepository.getForOwner, Snapshot.schedule, hrow]
  · obtain ⟨row, hrow, hif⟩ := Option.bind_eq_some_iff.mp hs
    have hown := (h.schedule (.inl hrow)).1
    split at hif
    · rename_i heq
      rw [← hown, heq, howner]
    · cases hif

theorem alike_listSchedules (howner : tenant (.user ownerId) = b) (limit offset : Nat) :
    ScheduleRepository.listForOwner ownerId limit offset v₁ =
      ScheduleRepository.listForOwner ownerId limit offset v₂ := by
  have hrows : ((v₁.scheduleIds.filterMap fun id => v₁.schedule id).filter fun s =>
      s.ownerId = ownerId) = (v₂.scheduleIds.filterMap fun id => v₂.schedule id).filter fun s =>
      s.ownerId = ownerId := by
    refine h.scanRows Snapshot.schedule scheduleId_eq_some (fun id hrow => congrArg Option.join hrow)
      fun id s hid hs => ?_
    have hown := (h.schedule hs).1
    simp only [decide_eq_false_iff_not]
    exact fun heq => ha (hid.symm.trans (hown.symm.trans (heq ▸ howner)))
  simp only [ScheduleRepository.listForOwner, hrows]

end Queries

end Chronos
