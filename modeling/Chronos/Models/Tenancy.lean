import Chronos.Models.Job

namespace Chronos

structure Organization where
  id : OrgId
  name : String
  createdAt : Time
deriving DecidableEq

structure Project where
  id : ProjectId
  orgId : OrgId
  name : String
  createdAt : Time
deriving DecidableEq

-- RBAC roles, ordered from most to least privileged.
inductive UserRole
  | owner
  | admin
  | member
  | viewer
deriving DecidableEq, Repr

structure User where
  id : UserId
  orgId : OrgId
  email : String
  role : UserRole
  createdAt : Time
deriving DecidableEq

end Chronos
