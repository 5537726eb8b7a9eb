import Chronos.Migrations.Tenancy

namespace Chronos.Migrations

open Chronos Sql

variable {u : Uuids} {p : Pick} {db db' : Tables}

-- A database at revision 0002, the new tables and columns empty.
structure At0002 (db : Tables) : Prop where
  userIds : (db.users.map (·.id)).Nodup
  emails : (db.users.map (·.email)).Nodup
  email : ∀ user ∈ db.users, user.email.length ≤ 255
  orgId : ∀ user ∈ db.users, user.orgId = none
  organizations : db.organizations = []
  projects : db.projects = []
  queues : db.queues = []
  owner : ∀ job ∈ db.jobs, ∃ user ∈ db.users, user.id = job.ownerId
  queue : ∀ job ∈ db.jobs, job.queue.length ≤ 100
  queueId : ∀ job ∈ db.jobs, job.queueId = none

-- Each user has an organization named after the email.
structure Personal (db : Tables) : Prop where
  userIds : (db.users.map (·.id)).Nodup
  emails : (db.users.map (·.email)).Nodup
  orgIds : (db.organizations.map (·.id)).Nodup
  names : db.organizations.map (·.name) = db.users.map (·.email)
  named : ∀ user ∈ db.users, ∃ org ∈ db.organizations, user.orgId = some org.id ∧
    org.name = user.email

-- Each organization has a project named default.
structure Housed (db : Tables) : Prop where
  personal : Personal db
  projectIds : (db.projects.map (·.id)).Nodup
  orgs : db.projects.map (·.orgId) = db.organizations.map (·.id)
  default : ∀ project ∈ db.projects, project.name = "default"

-- The default project of a user's organization.
def ProjectOf (db : Tables) (ownerId : UserId) (project : ProjectRow) : Prop :=
  project ∈ db.projects ∧ project.name = "default" ∧
    ∃ user ∈ db.users, user.id = ownerId ∧ user.orgId = some project.orgId

-- The queue of that name in the owner's default project.
def QueueOf (db : Tables) (ownerId : UserId) (name : String) (queue : QueueRow) : Prop :=
  queue ∈ db.queues ∧ queue.name = name ∧
    ∃ project, ProjectOf db ownerId project ∧ queue.projectId = project.id

-- What the backfill makes of a database.
structure Backfilled (db db' : Tables) : Prop where
  users : db'.users.map (fun user => (user.id, user.email)) =
    db.users.map fun user => (user.id, user.email)
  jobs : db'.jobs.map (fun job => (job.id, job.ownerId, job.queue)) =
    db.jobs.map fun job => (job.id, job.ownerId, job.queue)
  -- each user has an organization of its own, named after the email, and there are no others
  personal : ∀ user ∈ db'.users, ∃ org ∈ db'.organizations, user.orgId = some org.id ∧
    org.name = user.email
  distinct : (db'.users.map (·.orgId)).Nodup
  organizations : db'.organizations.length = db'.users.length
  orgIds : (db'.organizations.map (·.id)).Nodup
  -- each organization has one project, named default, and there are no others
  project : ∀ org ∈ db'.organizations, ∃! project, project ∈ db'.projects ∧ project.orgId = org.id
  default : ∀ project ∈ db'.projects, project.name = "default" ∧
    ∃ org ∈ db'.organizations, project.orgId = org.id
  projectIds : (db'.projects.map (·.id)).Nodup
  -- each owner and queue name has one queue, and no two of them share it
  queue : ∀ job ∈ db'.jobs, ∃! queue, QueueOf db' job.ownerId job.queue queue
  queues : ∀ queue ∈ db'.queues, ∃ job ∈ db'.jobs, QueueOf db' job.ownerId job.queue queue
  apart : ∀ a b name name' queue, QueueOf db' a name queue → QueueOf db' b name' queue →
    a = b ∧ name = name'
  queueIds : (db'.queues.map (·.id)).Nodup
  queueId : ∀ job ∈ db'.jobs, ∃ queue, QueueOf db' job.ownerId job.queue queue ∧
    job.queueId = some queue.id

section Organizations

variable (h : At0002 db)
include h

theorem newOrganizations_names : (newOrganizations u db).map (·.name) = db.users.map (·.email) := by
  have hpending : db.users.filter (fun user => user.orgId = none) = db.users :=
    List.filter_eq_self.mpr fun user huser => by simpa using h.orgId user huser
  rw [newOrganizations, hpending, List.map_map]
  have hsnd := congrArg (List.map UserRow.email) (withUuids_snd u db.users)
  rwa [List.map_map] at hsnd

omit h in
theorem newOrganizations_ids : ((newOrganizations u db).map (·.id)).Nodup := by
  rw [newOrganizations, List.map_map]
  exact withUuids_fst_nodup u _

-- A user's email is the name of one new organization.
theorem newOrganizations_of_user {user : UserRow} (huser : user ∈ db.users) :
    ∃ org ∈ newOrganizations u db, org.name = user.email ∧
      (newOrganizations u db).filter (fun org => org.name = user.email ∧ user.orgId = none) =
        [org] := by
  have hmem : user.email ∈ (newOrganizations u db).map (·.name) := by
    rw [newOrganizations_names h]
    exact List.mem_map_of_mem huser
  obtain ⟨org, horg, hname⟩ := List.mem_map.mp hmem
  have hnodup : ((newOrganizations u db).map (·.name)).Nodup := by
    rw [newOrganizations_names h]
    exact h.emails
  refine ⟨org, horg, hname, ?_⟩
  rw [← filter_key hnodup horg]
  refine List.filter_congr fun other _ => ?_
  simp [h.orgId user huser, hname]

theorem insertOrganizations_eq : ∃ db₁, insertOrganizations u p db = some db₁ ∧
    Personal db₁ ∧ db₁.projects = [] ∧ db₁.queues = [] ∧ db₁.jobs = db.jobs ∧
    db₁.users.map (fun user => (user.id, user.email)) =
      db.users.map fun user => (user.id, user.email) := by
  have hinsert : insertInto OrganizationRow.valid OrganizationRow.clash db.organizations
      (newOrganizations u db) = some (newOrganizations u db) := by
    rw [h.organizations]
    refine insertInto_eq (fun org horg => ?_) ?_
    · have hmem : org.name ∈ db.users.map (·.email) := by
        rw [← newOrganizations_names h (u := u)]
        exact List.mem_map_of_mem horg
      obtain ⟨user, huser, hname⟩ := List.mem_map.mp hmem
      simpa [OrganizationRow.valid, hname] using h.email user huser
    · exact pairwise_of_nodup newOrganizations_ids
  let users := updateFrom p (fun user => (newOrganizations u db).filter fun org =>
    org.name = user.email ∧ user.orgId = none)
    (fun user org => { user with orgId := some org.id }) db.users
  have hcolumns : users.map (fun user => (user.id, user.email)) =
      db.users.map fun user => (user.id, user.email) := updateFrom_map fun _ _ => rfl
  have hids : users.map (·.id) = db.users.map (·.id) := updateFrom_map fun _ _ => rfl
  have hemails : users.map (·.email) = db.users.map (·.email) := updateFrom_map fun _ _ => rfl
  refine ⟨{ db with organizations := newOrganizations u db, users }, ?_, ?_, h.projects, h.queues,
    rfl, hcolumns⟩
  · simp only [insertOrganizations, hinsert]
    rfl
  · refine ⟨hids ▸ h.userIds, hemails ▸ h.emails, newOrganizations_ids, ?_, ?_⟩
    · exact (newOrganizations_names h).trans hemails.symm
    · intro user huser
      obtain ⟨old, -, org, rfl, horg, hname⟩ := mem_updateFrom (fun old hold => by
        obtain ⟨org, horg, hname, hone⟩ := newOrganizations_of_user h (u := u) hold
        exact ⟨org, hone, And.intro horg hname⟩) huser
      exact ⟨org, horg, rfl, hname⟩

end Organizations

section Projects

variable (h : Personal db)

theorem newProjects_orgs (hnone : db.projects = []) :
    (newProjects u db).map (·.orgId) = db.organizations.map (·.id) := by
  have hmissing : db.organizations.filter (fun org =>
      !db.projects.any fun project => project.orgId = org.id ∧ project.name = "default") =
        db.organizations := List.filter_eq_self.mpr fun org _ => by simp [hnone]
  rw [newProjects, hmissing, List.map_map]
  have hsnd := congrArg (List.map OrganizationRow.id) (withUuids_snd u db.organizations)
  rwa [List.map_map] at hsnd

theorem newProjects_ids : ((newProjects u db).map (·.id)).Nodup := by
  rw [newProjects, List.map_map]
  exact withUuids_fst_nodup u _

theorem newProjects_default {project : ProjectRow} (hproject : project ∈ newProjects u db) :
    project.name = "default" := by
  obtain ⟨row, -, rfl⟩ := List.mem_map.mp hproject
  rfl

include h

theorem insertProjects_eq (hnone : db.projects = []) : ∃ projects,
    insertProjects u db = some { db with projects } ∧ Housed { db with projects } := by
  have hnodup : ((newProjects u db).map (·.orgId)).Nodup := by
    rw [newProjects_orgs hnone]
    exact h.orgIds
  have hinsert : insertInto (ProjectRow.valid db) ProjectRow.clash db.projects (newProjects u db) =
      some (newProjects u db) := by
    rw [hnone]
    refine insertInto_eq (fun project hproject => ?_) ?_
    · have hmem : project.orgId ∈ db.organizations.map (·.id) := by
        rw [← newProjects_orgs (u := u) hnone]
        exact List.mem_map_of_mem hproject
      obtain ⟨org, horg, hid⟩ := List.mem_map.mp hmem
      have hany : db.organizations.any (·.id = project.orgId) = true :=
        List.any_eq_true.mpr ⟨org, horg, by simpa using hid⟩
      simp only [ProjectRow.valid, newProjects_default hproject, hany]
      decide
    · refine ((pairwise_of_nodup newProjects_ids).and (pairwise_of_nodup hnodup)).imp ?_
      intro a b hab
      simp only [decide_eq_false_iff_not] at hab
      simp [ProjectRow.clash, hab]
  refine ⟨newProjects u db, ?_, ⟨⟨h.userIds, h.emails, h.orgIds, h.names, h.named⟩, newProjects_ids,
    newProjects_orgs hnone, fun project => newProjects_default⟩⟩
  simp only [insertProjects, hinsert]
  rfl

end Projects

section Housed

variable (h : Housed db)
include h

-- A user joins with one project.
theorem defaultProjects_of_user {user : UserRow} (huser : user ∈ db.users) :
    ∃ project ∈ db.projects, user.orgId = some project.orgId ∧
      defaultProjects db user.id = [project] := by
  obtain ⟨org, horg, horgId, -⟩ := h.personal.named user huser
  have hmem : org.id ∈ db.projects.map (·.orgId) := by
    rw [h.orgs]
    exact List.mem_map_of_mem horg
  obtain ⟨project, hproject, hid⟩ := List.mem_map.mp hmem
  have hnodup : (db.projects.map (·.orgId)).Nodup := by
    rw [h.orgs]
    exact h.personal.orgIds
  refine ⟨project, hproject, hid ▸ horgId, ?_⟩
  rw [defaultProjects, filter_key h.personal.userIds huser, List.flatMap_singleton,
    ← filter_key hnodup hproject]
  refine List.filter_congr fun other hother => ?_
  simp [horgId, h.default other hother, hid, eq_comm]

-- Users do not share an organization.
theorem user_of_orgId {a b : UserRow} (ha : a ∈ db.users) (hb : b ∈ db.users)
    (heq : a.orgId = b.orgId) : a = b := by
  obtain ⟨org, horg, horgId, hname⟩ := h.personal.named a ha
  obtain ⟨org', horg', horgId', hname'⟩ := h.personal.named b hb
  have hid : org.id = org'.id := by
    rw [horgId, horgId'] at heq
    exact Option.some.inj heq
  obtain rfl := List.inj_on_of_nodup_map h.personal.orgIds horg horg' hid
  exact List.inj_on_of_nodup_map h.personal.emails ha hb (hname.symm.trans hname')

theorem owner_of_project {a b : UserId} {project : ProjectRow} (ha : ProjectOf db a project)
    (hb : ProjectOf db b project) : a = b := by
  obtain ⟨-, -, user, huser, rfl, horg⟩ := ha
  obtain ⟨-, -, user', huser', rfl, horg'⟩ := hb
  rw [user_of_orgId h huser huser' (horg.trans horg'.symm)]

omit h in
theorem mem_defaultProjects {ownerId : UserId} {project : ProjectRow} :
    project ∈ defaultProjects db ownerId ↔ ProjectOf db ownerId project := by
  simp only [defaultProjects, List.mem_flatMap, List.mem_filter, decide_eq_true_eq, ProjectOf]
  constructor
  · rintro ⟨user, ⟨huser, hid⟩, hproject, horg, hname⟩
    exact ⟨hproject, hname, user, huser, hid, horg⟩
  · rintro ⟨hproject, hname, user, huser, hid, horg⟩
    exact ⟨user, ⟨huser, hid⟩, hproject, horg, hname⟩

omit h in
theorem mem_queueNames {name : ProjectId × String} : name ∈ queueNames db ↔
    ∃ job ∈ db.jobs, ∃ project, ProjectOf db job.ownerId project ∧
      name = (project.id, job.queue) := by
  simp only [queueNames, List.mem_flatMap, List.mem_dedup, List.mem_map, mem_defaultProjects]
  constructor
  · rintro ⟨used, ⟨job, hjob, rfl⟩, project, hproject, rfl⟩
    exact ⟨job, hjob, project, hproject, rfl⟩
  · rintro ⟨job, hjob, project, hproject, rfl⟩
    exact ⟨_, ⟨job, hjob, rfl⟩, project, hproject, rfl⟩

section Queues

variable (howner : ∀ job ∈ db.jobs, ∃ user ∈ db.users, user.id = job.ownerId)
include howner

theorem defaultProjects_of_job {job : JobRow} (hjob : job ∈ db.jobs) :
    ∃ project, defaultProjects db job.ownerId = [project] := by
  obtain ⟨user, huser, hid⟩ := howner job hjob
  obtain ⟨project, -, -, hone⟩ := defaultProjects_of_user h huser
  exact ⟨project, hid ▸ hone⟩

-- Different owners have different projects, so no name comes up twice.
theorem queueNames_nodup : (queueNames db).Nodup := by
  refine List.nodup_flatMap.mpr ⟨fun used hused => ?_, ?_⟩
  · rw [List.mem_dedup, List.mem_map] at hused
    obtain ⟨job, hjob, rfl⟩ := hused
    obtain ⟨project, hone⟩ := defaultProjects_of_job h howner hjob
    simp [hone]
  · refine (List.nodup_dedup _).pairwise_of_forall_ne fun used _ used' _ hne name hname hname' => ?_
    rw [List.mem_map] at hname hname'
    obtain ⟨project, hproject, rfl⟩ := hname
    obtain ⟨project', hproject', heq⟩ := hname'
    rw [mem_defaultProjects] at hproject hproject'
    rw [Prod.mk.injEq] at heq
    obtain rfl := List.inj_on_of_nodup_map h.projectIds hproject'.1 hproject.1 heq.1
    exact hne (Prod.ext (owner_of_project h hproject hproject') heq.2.symm)

omit h howner in
theorem newQueues_names : (newQueues u db).map (fun queue => (queue.projectId, queue.name)) =
    queueNames db := by
  rw [newQueues, List.map_map]
  exact withUuids_snd u (queueNames db)

omit h howner in
theorem newQueues_ids : ((newQueues u db).map (·.id)).Nodup := by
  rw [newQueues, List.map_map]
  exact withUuids_fst_nodup u _

theorem insertQueues_eq (hnone : db.queues = [])
    (hlength : ∀ job ∈ db.jobs, job.queue.length ≤ 100) :
    insertQueues u db = some { db with queues := newQueues u db } := by
  have hnodup : ((newQueues u db).map fun queue => (queue.projectId, queue.name)).Nodup := by
    rw [newQueues_names]
    exact queueNames_nodup h howner
  have hconflict : (newQueues u db).Pairwise fun a b => b.conflict a = false := by
    refine (pairwise_of_nodup hnodup).imp fun {a b} hab => ?_
    simpa [QueueRow.conflict] using hab
  have hinsert : insertOrSkip QueueRow.conflict (QueueRow.valid db) QueueRow.clash db.queues
      (newQueues u db) = some (newQueues u db) := by
    rw [hnone]
    refine insertOrSkip_new (fun queue hqueue => ?_) ?_ hconflict
    · have hmem : (queue.projectId, queue.name) ∈ queueNames db := by
        rw [← newQueues_names (u := u)]
        exact List.mem_map_of_mem hqueue
      obtain ⟨job, hjob, project, hproject, heq⟩ := mem_queueNames.mp hmem
      rw [Prod.mk.injEq] at heq
      have hany : db.projects.any (·.id = queue.projectId) = true :=
        List.any_eq_true.mpr ⟨project, hproject.1, by simpa using heq.1.symm⟩
      simp [QueueRow.valid, heq.2, hlength job hjob, hany]
    · refine ((pairwise_of_nodup newQueues_ids).and hconflict).imp fun {a b} hab => ?_
      simpa [QueueRow.clash] using hab
  simp only [insertQueues, hinsert]
  rfl

end Queues

end Housed

-- The queues are there.
structure Queued (db : Tables) : Prop where
  housed : Housed db
  owner : ∀ job ∈ db.jobs, ∃ user ∈ db.users, user.id = job.ownerId
  queueIds : (db.queues.map (·.id)).Nodup
  names : db.queues.map (fun queue => (queue.projectId, queue.name)) = queueNames db

theorem Queued.of_housed (h : Housed db)
    (howner : ∀ job ∈ db.jobs, ∃ user ∈ db.users, user.id = job.ownerId) :
    Queued { db with queues := newQueues u db } where
  housed := ⟨⟨h.personal.userIds, h.personal.emails, h.personal.orgIds, h.personal.names,
    h.personal.named⟩, h.projectIds, h.orgs, h.default⟩
  owner := howner
  queueIds := newQueues_ids
  names := newQueues_names

section Queued

variable (h : Queued db)
include h

-- A job joins with one queue.
theorem jobQueues_of_job {job : JobRow} (hjob : job ∈ db.jobs) :
    ∃ queue, jobQueues db job = [queue] ∧ QueueOf db job.ownerId job.queue queue := by
  obtain ⟨project, hone⟩ := defaultProjects_of_job h.housed h.owner hjob
  have hproject : ProjectOf db job.ownerId project :=
    mem_defaultProjects.mp (hone ▸ List.mem_singleton_self project)
  have hmem : (project.id, job.queue) ∈
      db.queues.map fun queue => (queue.projectId, queue.name) := by
    rw [h.names]
    exact mem_queueNames.mpr ⟨job, hjob, project, hproject, rfl⟩
  obtain ⟨queue, hqueue, heq⟩ := List.mem_map.mp hmem
  have hnodup : (db.queues.map fun queue => (queue.projectId, queue.name)).Nodup := by
    rw [h.names]
    exact queueNames_nodup h.housed h.owner
  rw [Prod.mk.injEq] at heq
  refine ⟨queue, ?_, hqueue, heq.2, project, hproject, heq.1⟩
  rw [jobQueues, hone, List.flatMap_singleton, ← filter_key hnodup hqueue]
  refine List.filter_congr fun other _ => ?_
  simp [heq]

theorem queueOf_unique {a b : UserId} {name name' : String} {queue : QueueRow}
    (ha : QueueOf db a name queue) (hb : QueueOf db b name' queue) : a = b ∧ name = name' := by
  obtain ⟨-, hname, project, hproject, hid⟩ := ha
  obtain ⟨-, hname', project', hproject', hid'⟩ := hb
  obtain rfl := List.inj_on_of_nodup_map h.housed.projectIds hproject.1 hproject'.1
    (hid.symm.trans hid')
  exact ⟨owner_of_project h.housed hproject hproject', hname.symm.trans hname'⟩

theorem queue_of_name {a : UserId} {name : String} {queue queue' : QueueRow}
    (hqueue : QueueOf db a name queue) (hqueue' : QueueOf db a name queue') : queue = queue' := by
  obtain ⟨hmem, hname, project, ⟨hproject, -, user, huser, hid, horg⟩, hprojectId⟩ := hqueue
  obtain ⟨hmem', hname', project', ⟨hproject', -, user', huser', hid', horg'⟩, hprojectId'⟩ := hqueue'
  obtain rfl := List.inj_on_of_nodup_map h.housed.personal.userIds huser huser'
    (hid.trans hid'.symm)
  have horgs : (db.projects.map (·.orgId)).Nodup := by
    rw [h.housed.orgs]
    exact h.housed.personal.orgIds
  obtain rfl := List.inj_on_of_nodup_map horgs hproject hproject'
    (Option.some.inj (horg.symm.trans horg'))
  have hnodup : (db.queues.map fun queue => (queue.projectId, queue.name)).Nodup := by
    rw [h.names]
    exact queueNames_nodup h.housed h.owner
  refine List.inj_on_of_nodup_map hnodup hmem hmem' (Prod.ext ?_ ?_)
  · exact hprojectId.trans hprojectId'.symm
  · exact hname.trans hname'.symm

omit h in
theorem updateJobs_columns : (updateJobs p db).jobs.map (fun job => (job.id, job.ownerId, job.queue)) =
    db.jobs.map fun job => (job.id, job.ownerId, job.queue) :=
  updateFrom_map fun _ _ => rfl

theorem Queued.updateJobs : Queued (updateJobs p db) where
  housed := ⟨⟨h.housed.personal.userIds, h.housed.personal.emails, h.housed.personal.orgIds,
    h.housed.personal.names, h.housed.personal.named⟩, h.housed.projectIds, h.housed.orgs,
    h.housed.default⟩
  owner job hjob := by
    have hmem : job.ownerId ∈ (Migrations.updateJobs p db).jobs.map (·.ownerId) :=
      List.mem_map_of_mem hjob
    rw [show (Migrations.updateJobs p db).jobs.map (·.ownerId) = db.jobs.map (·.ownerId) from
      updateFrom_map fun _ _ => rfl] at hmem
    obtain ⟨old, hold, heq⟩ := List.mem_map.mp hmem
    exact heq ▸ h.owner old hold
  queueIds := h.queueIds
  names := by
    have hused : (Migrations.updateJobs p db).jobs.map (fun job => (job.ownerId, job.queue)) =
        db.jobs.map fun job => (job.ownerId, job.queue) := updateFrom_map fun _ _ => rfl
    rw [queueNames, hused]
    exact h.names

theorem updateJobs_queueId (hnone : ∀ job ∈ db.jobs, job.queueId = none) {job : JobRow}
    (hjob : job ∈ (Migrations.updateJobs p db).jobs) :
    ∃ queue, QueueOf db job.ownerId job.queue queue ∧ job.queueId = some queue.id := by
  obtain ⟨old, -, queue, rfl, hqueue⟩ := mem_updateFrom (fun old hold => by
    obtain ⟨queue, hone, hqueue⟩ := jobQueues_of_job h hold
    exact ⟨queue, by rw [if_pos (hnone old hold), hone], hqueue⟩) hjob
  exact ⟨queue, hqueue, rfl⟩

-- Nothing is left to be done.
theorem backfill_again (u : Draws) (hset : ∀ job ∈ db.jobs, job.queueId ≠ none) :
    backfill u p db = some db := by
  have horgs : newOrganizations u.organizations db = [] := by
    have hset : db.users.filter (fun user => user.orgId = none) = [] := by
      refine List.filter_eq_nil_iff.mpr fun user huser => ?_
      obtain ⟨org, -, horgId, -⟩ := h.housed.personal.named user huser
      simp [horgId]
    rw [newOrganizations, hset]
    rfl
  have hfirst : insertOrganizations u.organizations p db = some db := by
    have hsame : insertInto OrganizationRow.valid OrganizationRow.clash db.organizations [] =
        some db.organizations := rfl
    simp only [insertOrganizations, horgs, hsame, List.filter_nil]
    rw [updateFrom_nil fun _ _ => rfl]
    rfl
  have hprojects : newProjects u.projects db = [] := by
    have hall : db.organizations.filter (fun org =>
        !db.projects.any fun project => project.orgId = org.id ∧ project.name = "default") = [] := by
      refine List.filter_eq_nil_iff.mpr fun org horg => ?_
      have hmem : org.id ∈ db.projects.map (·.orgId) := by
        rw [h.housed.orgs]
        exact List.mem_map_of_mem horg
      obtain ⟨project, hproject, hid⟩ := List.mem_map.mp hmem
      simpa using ⟨project, hproject, hid, h.housed.default project hproject⟩
    rw [newProjects, hall]
    rfl
  have hsecond : insertProjects u.projects db = some db := by
    simp only [insertProjects, hprojects]
    rfl
  have hthird : insertQueues u.queues db = some db := by
    have hskip : insertOrSkip QueueRow.conflict (QueueRow.valid db) QueueRow.clash db.queues
        (newQueues u.queues db) = some db.queues := by
      refine insertOrSkip_old fun row hrow => ?_
      have hmem : (row.projectId, row.name) ∈ queueNames db := by
        rw [← newQueues_names (u := u.queues)]
        exact List.mem_map_of_mem hrow
      rw [← h.names] at hmem
      obtain ⟨queue, hqueue, heq⟩ := List.mem_map.mp hmem
      rw [Prod.mk.injEq] at heq
      exact List.any_eq_true.mpr ⟨queue, hqueue, by simp [QueueRow.conflict, heq]⟩
    simp only [insertQueues, hskip]
    rfl
  have hfourth : Migrations.updateJobs p db = db := by
    rw [Migrations.updateJobs, updateFrom_nil fun job hjob => if_neg (hset job hjob)]
  simp only [backfill, hfirst, hsecond, hthird, Option.bind_eq_bind, Option.bind_some, hfourth]
  rfl

end Queued

theorem Queued.backfilled {before : Tables} (h : Queued db)
    (husers : db.users.map (fun user => (user.id, user.email)) =
      before.users.map fun user => (user.id, user.email))
    (hjobs : db.jobs.map (fun job => (job.id, job.ownerId, job.queue)) =
      before.jobs.map fun job => (job.id, job.ownerId, job.queue))
    (hqueueId : ∀ job ∈ db.jobs, ∃ queue, QueueOf db job.ownerId job.queue queue ∧
      job.queueId = some queue.id) : Backfilled before db where
  users := husers
  jobs := hjobs
  personal := h.housed.personal.named
  distinct := by
    refine (List.nodup_map_iff_inj_on (List.Nodup.of_map _ h.housed.personal.userIds)).mpr ?_
    exact fun a ha b hb heq => user_of_orgId h.housed ha hb heq
  organizations := by
    have hlength := congrArg List.length h.housed.personal.names
    rwa [List.length_map, List.length_map] at hlength
  orgIds := h.housed.personal.orgIds
  project org horg := by
    have hmem : org.id ∈ db.projects.map (·.orgId) := by
      rw [h.housed.orgs]
      exact List.mem_map_of_mem horg
    obtain ⟨project, hproject, hid⟩ := List.mem_map.mp hmem
    have hnodup : (db.projects.map (·.orgId)).Nodup := by
      rw [h.housed.orgs]
      exact h.housed.personal.orgIds
    refine ⟨project, ⟨hproject, hid⟩, fun other ⟨hother, hid'⟩ => ?_⟩
    exact List.inj_on_of_nodup_map hnodup hother hproject (hid'.trans hid.symm)
  default project hproject := by
    have hmem : project.orgId ∈ db.organizations.map (·.id) := by
      rw [← h.housed.orgs]
      exact List.mem_map_of_mem hproject
    obtain ⟨org, horg, hid⟩ := List.mem_map.mp hmem
    exact ⟨h.housed.default project hproject, org, horg, hid.symm⟩
  projectIds := h.housed.projectIds
  queue job hjob := by
    obtain ⟨queue, -, hqueue⟩ := jobQueues_of_job h hjob
    exact ⟨queue, hqueue, fun other hother => queue_of_name h hother hqueue⟩
  queues queue hqueue := by
    have hmem : (queue.projectId, queue.name) ∈ queueNames db := by
      rw [← h.names]
      exact List.mem_map_of_mem hqueue
    obtain ⟨job, hjob, project, hproject, heq⟩ := mem_queueNames.mp hmem
    rw [Prod.mk.injEq] at heq
    exact ⟨job, hjob, hqueue, heq.2, project, hproject, heq.1⟩
  apart _ _ _ _ _ ha hb := queueOf_unique h ha hb
  queueIds := h.queueIds
  queueId := hqueueId

-- The upgrade of every database at revision 0002 goes through, whatever ids are drawn, and leaves
-- it as the backfill should; a second backfill changes nothing.
theorem backfill_total_exact (u : Draws) (p : Pick) (h : At0002 db) :
    ∃ db', upgrade u p db = some db' ∧ backfill u p db = some db' ∧ Backfilled db db' ∧
      ∀ u' p', backfill u' p' db' = some db' := by
  obtain ⟨db₁, hfirst, hpersonal, hprojects, hqueues, hjobs, husers⟩ :=
    insertOrganizations_eq (u := u.organizations) (p := p) h
  obtain ⟨projects, hsecond, hhoused⟩ := insertProjects_eq (u := u.projects) hpersonal hprojects
  let db₂ : Tables := { db₁ with projects }
  have howner : ∀ job ∈ db₂.jobs, ∃ user ∈ db₂.users, user.id = job.ownerId := by
    intro job hjob
    obtain ⟨user, huser, hid⟩ := h.owner job (hjobs ▸ hjob)
    have hmem : (user.id, user.email) ∈ db₁.users.map fun user => (user.id, user.email) := by
      rw [husers]
      exact List.mem_map_of_mem huser
    obtain ⟨user', huser', heq⟩ := List.mem_map.mp hmem
    exact ⟨user', huser', (congrArg Prod.fst heq).trans hid⟩
  have hthird : insertQueues u.queues db₂ = some { db₂ with queues := newQueues u.queues db₂ } :=
    insertQueues_eq hhoused howner hqueues fun job hjob => h.queue job (hjobs ▸ hjob)
  let db₃ : Tables := { db₂ with queues := newQueues u.queues db₂ }
  have hqueued : Queued db₃ := .of_housed hhoused howner
  have hdone : Queued (updateJobs p db₃) := hqueued.updateJobs
  have hqueueId : ∀ job ∈ (updateJobs p db₃).jobs, ∃ queue,
      QueueOf (updateJobs p db₃) job.ownerId job.queue queue ∧ job.queueId = some queue.id :=
    fun job hjob => updateJobs_queueId hqueued (fun job hjob => h.queueId job (hjobs ▸ hjob)) hjob
  have husersSet : alterUsers db₂ = some db₂ := by
    refine if_pos (List.all_eq_true.mpr fun user huser => ?_)
    obtain ⟨org, horg, horgId, -⟩ := hpersonal.named user huser
    simpa [horgId] using ⟨org, horg, rfl⟩
  have hjobsSet : alterJobs (updateJobs p db₃) = some (updateJobs p db₃) := by
    refine if_pos (List.all_eq_true.mpr fun job hjob => ?_)
    obtain ⟨queue, hqueue, hid⟩ := hqueueId job hjob
    simpa [hid] using ⟨queue, hqueue.1, rfl⟩
  refine ⟨updateJobs p db₃, ?_, ?_, ?_, fun u' p' => backfill_again hdone u' fun job hjob => ?_⟩
  · simp only [upgrade, hfirst, hsecond, Option.bind_eq_bind, Option.bind_some]
    change (alterUsers db₂).bind _ = _
    rw [husersSet, Option.bind_some, hthird]
    exact hjobsSet
  · simp only [backfill, hfirst, hsecond, Option.bind_eq_bind, Option.bind_some]
    change (insertQueues u.queues db₂).bind _ = _
    rw [hthird]
    rfl
  · refine hdone.backfilled husers ?_ hqueueId
    exact updateJobs_columns.trans (congrArg (List.map _) hjobs)
  · obtain ⟨queue, -, hid⟩ := hqueueId job hjob
    simp [hid]

section Example

-- Two users, one of them with jobs in two queues.
def twoUsers : Tables where
  users := [⟨1, "ann@example.org", none⟩, ⟨2, "bob@example.org", none⟩]
  organizations := []
  projects := []
  queues := []
  jobs := [⟨7, 1, "default", none⟩, ⟨8, 1, "exports", none⟩, ⟨9, 2, "default", none⟩,
    ⟨10, 1, "default", none⟩]

def counting : Uuids := ⟨id, Function.injective_id⟩

theorem at0002_twoUsers : At0002 twoUsers where
  userIds := by decide
  emails := by decide
  email := by decide
  orgId := by decide
  organizations := rfl
  projects := rfl
  queues := rfl
  owner := by decide
  queue := by decide
  queueId := by decide

theorem backfill_twoUsers : ∃ db', upgrade ⟨counting, counting, counting⟩ .first twoUsers = some db' ∧
    db'.jobs.map (·.queueId) = [some 2, some 0, some 1, some 2] ∧ Backfilled twoUsers db' := by
  obtain ⟨db', hupgrade, -, hfilled, -⟩ :=
    backfill_total_exact ⟨counting, counting, counting⟩ .first at0002_twoUsers
  refine ⟨db', hupgrade, ?_, hfilled⟩
  have hjobs : (upgrade ⟨counting, counting, counting⟩ .first twoUsers).map (fun db =>
      db.jobs.map (·.queueId)) = some [some 2, some 0, some 1, some 2] := by
    decide +kernel
  rw [hupgrade] at hjobs
  exact Option.some.inj hjobs

end Example

end Chronos.Migrations
