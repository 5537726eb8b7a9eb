import Chronos.Services.Queues

namespace Chronos

open Txn (stmt)

-- uq_projects_org_name
def uqProjectsOrgName (project : Project) : ∀ k, Row k → Bool
  | .project _, p => p.orgId = project.orgId ∧ p.name = project.name
  | _, _ => false

namespace TenancyRepository

-- ORDER BY created_at
def listProjects (orgId : OrgId) (v : Snapshot) : List Project :=
  ((v.projectIds.filterMap fun id => v.project id).filter fun p => p.orgId = orgId).insertionSort
    fun a b => a.createdAt ≤ b.createdAt

end TenancyRepository

namespace TenancyService

def getOrg (user : SessionUser) : Tx (Except PyError Organization) := do
  let _ ← stmt .begin
  let org ← select fun v => v.org user.orgId
  stmt .rollback
  match org with
  | some org => return .ok org
  | none => return .error (.notFound "organization not found")

def listProjects (user : SessionUser) : Tx (List Project) := do
  let _ ← stmt .begin
  let projects ← select (TenancyRepository.listProjects user.orgId)
  stmt .rollback
  return projects

def getProject (user : SessionUser) (projectId : ProjectId) : Tx (Except PyError Project) := do
  let _ ← stmt .begin
  let project ← select (TenancyRepository.getProject projectId user.orgId)
  stmt .rollback
  match project with
  | some project => return .ok project
  | none => return .error (.notFound "project not found")

def createProject (user : SessionUser) (name : String) (id : ProjectId) :
    Tx (Except PyError Project) := do
  let now ← stmt .begin
  let project : Project := { id := id, orgId := user.orgId, name := name, createdAt := now }
  if ← insertProject id project (uqProjectsOrgName project) then do
    stmt .commit
    stmt .rollback
    return .ok project
  else do
    stmt .rollback
    return .error (.conflict
      ("a project named " ++ pyRepr name ++ " already exists in your organization"))

end TenancyService

namespace UserRepository

-- ORDER BY created_at
def listForOrg (orgId : OrgId) (v : Snapshot) : List User :=
  ((v.userIds.filterMap fun id => v.user id).filter fun u => u.orgId = orgId).insertionSort
    fun a b => a.createdAt ≤ b.createdAt

def updateRole (userId : UserId) (orgId : OrgId) (role : UserRole) : Tx (Option User) :=
  updateUser userId (fun u => u.orgId = orgId) fun u => { u with role := role }

end UserRepository

end Chronos
