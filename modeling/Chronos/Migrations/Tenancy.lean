import Chronos.Migrations.Sql
import Chronos.Models.Job
import Mathlib.Data.List.Dedup

namespace Chronos.Migrations

open Chronos Sql

-- The columns of the tables that the backfill of revision 0003 reads or writes.
structure UserRow where
  id : UserId
  email : String
  orgId : Option OrgId
deriving DecidableEq

structure OrganizationRow where
  id : OrgId
  name : String
deriving DecidableEq

structure ProjectRow where
  id : ProjectId
  orgId : OrgId
  name : String
deriving DecidableEq

structure QueueRow where
  id : QueueId
  projectId : ProjectId
  name : String
deriving DecidableEq

structure JobRow where
  id : JobId
  ownerId : UserId
  queue : String
  queueId : Option QueueId
deriving DecidableEq

structure Tables where
  users : List UserRow
  organizations : List OrganizationRow
  projects : List ProjectRow
  queues : List QueueRow
  jobs : List JobRow
deriving DecidableEq

-- The ids that the INSERT statements draw.
structure Draws where
  organizations : Uuids
  projects : Uuids
  queues : Uuids

-- The constraints of the new tables: VARCHAR lengths, foreign keys, and which two rows violate a
-- primary key or unique constraint.
def OrganizationRow.valid (org : OrganizationRow) : Bool := org.name.length ≤ 255

def OrganizationRow.clash (a b : OrganizationRow) : Bool := a.id = b.id

def ProjectRow.valid (db : Tables) (project : ProjectRow) : Bool :=
  project.name.length ≤ 100 ∧ db.organizations.any (·.id = project.orgId)

def ProjectRow.clash (a b : ProjectRow) : Bool :=
  a.id = b.id ∨ a.orgId = b.orgId ∧ a.name = b.name

def QueueRow.valid (db : Tables) (queue : QueueRow) : Bool :=
  queue.name.length ≤ 100 ∧ db.projects.any (·.id = queue.projectId)

def QueueRow.conflict (a b : QueueRow) : Bool := a.projectId = b.projectId ∧ a.name = b.name

def QueueRow.clash (a b : QueueRow) : Bool := a.id = b.id ∨ a.conflict b

-- SELECT gen_random_uuid(), u.email FROM users u WHERE u.org_id IS NULL
def newOrganizations (u : Uuids) (db : Tables) : List OrganizationRow :=
  (withUuids u (db.users.filter (·.orgId = none))).map fun row => ⟨row.1, row.2.email⟩

-- WITH new_orgs AS (INSERT INTO organizations … RETURNING id, name) UPDATE users u …
def insertOrganizations (u : Uuids) (p : Pick) (db : Tables) : Option Tables := do
  let newOrgs := newOrganizations u db
  let organizations ← insertInto OrganizationRow.valid OrganizationRow.clash db.organizations newOrgs
  let users := updateFrom p
    (fun user => newOrgs.filter fun org => org.name = user.email ∧ user.orgId = none)
    (fun user org => { user with orgId := some org.id }) db.users
  return { db with organizations, users }

-- SELECT gen_random_uuid(), o.id, 'default' FROM organizations o WHERE NOT EXISTS …
def newProjects (u : Uuids) (db : Tables) : List ProjectRow :=
  (withUuids u (db.organizations.filter fun org =>
    !db.projects.any fun project => project.orgId = org.id ∧ project.name = "default")).map
      fun row => ⟨row.1, row.2.id, "default"⟩

def insertProjects (u : Uuids) (db : Tables) : Option Tables := do
  let projects ← insertInto (ProjectRow.valid db) ProjectRow.clash db.projects (newProjects u db)
  return { db with projects }

-- JOIN users u ON u.id = owner_id JOIN projects p ON p.org_id = u.org_id AND p.name = 'default'
def defaultProjects (db : Tables) (ownerId : UserId) : List ProjectRow :=
  (db.users.filter (·.id = ownerId)).flatMap fun user =>
    db.projects.filter fun project => user.orgId = some project.orgId ∧ project.name = "default"

-- FROM (SELECT DISTINCT owner_id, queue FROM jobs) j JOIN …
def queueNames (db : Tables) : List (ProjectId × String) :=
  (db.jobs.map fun job => (job.ownerId, job.queue)).dedup.flatMap fun used =>
    (defaultProjects db used.1).map fun project => (project.id, used.2)

def newQueues (u : Uuids) (db : Tables) : List QueueRow :=
  (withUuids u (queueNames db)).map fun row => ⟨row.1, row.2.1, row.2.2⟩

-- INSERT INTO queues … ON CONFLICT (project_id, name) DO NOTHING
def insertQueues (u : Uuids) (db : Tables) : Option Tables := do
  let queues ← insertOrSkip QueueRow.conflict (QueueRow.valid db) QueueRow.clash db.queues
    (newQueues u db)
  return { db with queues }

-- The queues that UPDATE jobs SET queue_id … joins a job with.
def jobQueues (db : Tables) (job : JobRow) : List QueueRow :=
  (defaultProjects db job.ownerId).flatMap fun project =>
    db.queues.filter fun queue => queue.projectId = project.id ∧ queue.name = job.queue

-- UPDATE jobs SET queue_id = q.id …
def updateJobs (p : Pick) (db : Tables) : Tables :=
  let jobs := updateFrom p (fun job => if job.queueId = none then jobQueues db job else [])
    (fun job queue => { job with queueId := some queue.id }) db.jobs
  { db with jobs }

def backfill (u : Draws) (p : Pick) (db : Tables) : Option Tables := do
  let db ← insertOrganizations u.organizations p db
  let db ← insertProjects u.projects db
  let db ← insertQueues u.queues db
  return updateJobs p db

-- SET NOT NULL and the foreign key that is created after it.
def alterUsers (db : Tables) : Option Tables :=
  if db.users.all fun user => user.orgId.any fun id => db.organizations.any (·.id = id) then some db
  else none

def alterJobs (db : Tables) : Option Tables :=
  if db.jobs.all fun job => job.queueId.any fun id => db.queues.any (·.id = id) then some db
  else none

def upgrade (u : Draws) (p : Pick) (db : Tables) : Option Tables := do
  let db ← insertOrganizations u.organizations p db
  let db ← insertProjects u.projects db
  let db ← alterUsers db
  let db ← insertQueues u.queues db
  alterJobs (updateJobs p db)

end Chronos.Migrations
