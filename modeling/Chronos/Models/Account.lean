import Chronos.Models.Tenancy
import Chronos.Txn.Program
import Mathlib.Algebra.Order.Round
import Mathlib.Data.Rat.Floor

namespace Chronos

-- A row of the users table.
structure Account where
  user : User
  passwordHash : String
deriving DecidableEq

-- The tables that registration writes to.
inductive AccountKey
  | org (id : OrgId)
  | project (id : ProjectId)
  | user (id : UserId)
deriving DecidableEq, Repr

@[reducible] def AccountRow : AccountKey → Type
  | .org _ => Organization
  | .project _ => Project
  | .user _ => Account

abbrev AccountDb := Txn.Store AccountKey AccountRow Time
abbrev AccountView := Txn.View AccountKey AccountRow
abbrev AccountTx := Txn.Prog AccountKey AccountRow Time

def AccountKey.userId : AccountKey → Option UserId
  | .user id => some id
  | _ => none

def accounts (v : AccountView) : List Account :=
  (v.keys.filterMap AccountKey.userId).filterMap fun id => v.row (.user id)

-- uq_projects_org_name, and the unique index on the email.
def accountClash : ∀ k, AccountRow k → ∀ k', AccountRow k' → Bool
  | .project _, p, .project _, p' => p.orgId = p'.orgId ∧ p.name = p'.name
  | .user _, a, .user _, a' => a.user.email = a'.user.email
  | _, _, _, _ => false

theorem accountClash_symm (k : AccountKey) (v : AccountRow k) (k' : AccountKey)
    (v' : AccountRow k') : accountClash k v k' v' = accountClash k' v' k v := by
  cases k <;> cases k' <;> simp [accountClash, eq_comm]

-- The claims of an access token.
structure TokenPayload where
  sub : Option String
  iat : Int
  exp : Int
  jti : String
deriving DecidableEq

-- What the service takes from str, uuid, bcrypt and PyJWT. `none` is an exception: ValueError of
-- uuid and bcrypt, PyJWTError of jwt.decode.
structure AuthLibrary where
  strip : String → String
  lower : String → String
  uuidStr : UserId → String
  uuidParse : String → Option UserId
  hashpw : (password salt : String) → Option String
  checkpw : (password passwordHash : String) → Option Bool
  jwtEncode : (payload : TokenPayload) → (secret algorithm : String) → String
  jwtDecode : (token secret algorithm : String) → (now : Time) → Option TokenPayload

-- What is relied on: a UUID is read back, a password matches its own hash, and a token is
-- accepted from its iat until its exp.
structure AuthLibrary.Lawful (lib : AuthLibrary) : Prop where
  uuidParse : ∀ id, lib.uuidParse (lib.uuidStr id) = some id
  checkpw : ∀ password salt passwordHash, lib.hashpw password salt = some passwordHash →
    lib.checkpw password passwordHash = some true
  jwtDecode : ∀ payload secret algorithm now,
    lib.jwtDecode (lib.jwtEncode payload secret algorithm) secret algorithm now =
      if payload.iat ≤ now ∧ now < payload.exp then some payload else none

structure AuthSettings where
  jwtSecret : String
  jwtAlgorithm : String
  accessTokenTtlMinutes : Int

end Chronos
