import Chronos.Models.Account
import Chronos.Txn.Pool

namespace Chronos

open Txn (stmt TxId)

-- The errors of AuthService and get_current_user. `valueError` comes from bcrypt and `dataError`
-- from a value that does not fit its column.
inductive AuthError
  | emailAlreadyRegistered (detail : String)
  | authentication (detail : String)
  | credentials (detail : String)
  | multipleResultsFound
  | valueError
  | dataError
deriving DecidableEq, Repr

-- What the database and the libraries hand out for a registration.
structure RegistrationIds where
  orgId : OrgId
  projectId : ProjectId
  userId : UserId
  salt : String
deriving DecidableEq

-- datetime.now, read between two statements.
def utcNow : AccountTx Time := stmt .begin

def scalarOneOrNone {α : Type} : List α → Except AuthError (Option α)
  | [] => .ok none
  | [a] => .ok (some a)
  | _ => .error .multipleResultsFound

section Security

variable (lib : AuthLibrary) (settings : AuthSettings)

def verifyPassword (password passwordHash : String) : Bool :=
  (lib.checkpw password passwordHash).getD false

def tokenPayload (now : Time) (subject jti : String) : TokenPayload where
  sub := some subject
  iat := ⌊now⌋
  exp := ⌊now + settings.accessTokenTtlMinutes * 60⌋
  jti := jti

def createAccessToken (now : Time) (subject jti : String) : String :=
  lib.jwtEncode (tokenPayload settings now subject jti) settings.jwtSecret settings.jwtAlgorithm

def decodeAccessToken (token : String) (now : Time) : Option TokenPayload :=
  lib.jwtDecode token settings.jwtSecret settings.jwtAlgorithm now

end Security

def AccountRepository.getByEmail (email : String) (v : AccountView) :
    Except AuthError (Option Account) :=
  scalarOneOrNone ((accounts v).filter fun a => a.user.email = email)

namespace AuthService

variable (lib : AuthLibrary) (settings : AuthSettings)

def normalize (email : String) : String := lib.lower (lib.strip email)

-- The rows of a registration, as they are inserted.
def newOrg (ids : RegistrationIds) (normalized : String) (now : Time) : Organization where
  id := ids.orgId
  name := normalized
  createdAt := now

def newProject (ids : RegistrationIds) (now : Time) : Project where
  id := ids.projectId
  orgId := ids.orgId
  name := "default"
  createdAt := now

def newAccount (ids : RegistrationIds) (normalized passwordHash : String) (now : Time) :
    Account where
  user :=
    { id := ids.userId, orgId := ids.orgId, email := normalized, role := .owner, createdAt := now }
  passwordHash := passwordHash

def insertRow (k : AccountKey) (row : AccountRow k) : AccountTx Bool :=
  stmt (.insert k row (accountClash k row))

-- session.rollback and the error for what was an IntegrityError.
def alreadyRegistered : AccountTx (Except AuthError User) := do
  stmt .rollback
  return .error (.emailAlreadyRegistered "email already registered")

def register (email password : String) (ids : RegistrationIds) :
    AccountTx (Except AuthError User) := do
  let normalized := normalize lib email
  let now ← stmt .begin
  if 255 < normalized.length then
    stmt .rollback
    return .error .dataError
  else
    let _ ← insertRow (.org ids.orgId) (newOrg ids normalized now)
    match lib.hashpw password ids.salt with
    | none =>
        stmt .rollback
        return .error .valueError
    | some passwordHash =>
        -- The project and the user are flushed by the commit.
        if ← insertRow (.project ids.projectId) (newProject ids now) then
          let account := newAccount ids normalized passwordHash now
          if ← insertRow (.user ids.userId) account then
            stmt .commit
            stmt .rollback
            return .ok account.user
          else alreadyRegistered
        else alreadyRegistered

def login (email password jti : String) : AccountTx (Except AuthError String) := do
  let _ ← stmt .begin
  let found ← stmt (.select (AccountRepository.getByEmail (normalize lib email)))
  match found.map (Option.filter fun a => verifyPassword lib password a.passwordHash) with
  | .error err =>
      stmt .rollback
      return .error err
  | .ok none =>
      stmt .rollback
      return .error (.authentication "invalid email or password")
  | .ok (some account) =>
      let now ← utcNow
      stmt .rollback
      return .ok (createAccessToken lib settings now (lib.uuidStr account.user.id) jti)

def getUser (userId : UserId) : AccountTx (Option User) := do
  let _ ← stmt .begin
  let found ← stmt (.select fun v => v.row (.user userId))
  stmt .rollback
  return Option.map Account.user found

end AuthService

def getCurrentUser (lib : AuthLibrary) (settings : AuthSettings) (token : String) :
    AccountTx (Except AuthError User) := do
  let now ← utcNow
  let payload := decodeAccessToken lib settings token now
  match (payload.bind TokenPayload.sub).bind lib.uuidParse with
  | none => return .error (.credentials "invalid or expired credentials")
  | some userId =>
      match ← AuthService.getUser userId with
      | none => return .error (.credentials "invalid or expired credentials")
      | some user => return .ok user

-- POST /auth/register, POST /auth/login past the rate limit, and GET /auth/me.
inductive AccountCall
  | register (email password : String) (ids : RegistrationIds)
  | login (email password jti : String)
  | me (token : String)
deriving DecidableEq

inductive AccountValue
  | registered (r : Except AuthError User)
  | token (r : Except AuthError String)
  | current (r : Except AuthError User)
deriving DecidableEq

def AccountCall.body (lib : AuthLibrary) (settings : AuthSettings) :
    AccountCall → AccountTx AccountValue
  | .register email password ids => do
      return .registered (← AuthService.register lib email password ids)
  | .login email password jti => do
      return .token (← AuthService.login lib settings email password jti)
  | .me token => do
      return .current (← getCurrentUser lib settings token)

-- Any number of these requests at once.
def accountSystem (lib : AuthLibrary) (settings : AuthSettings) :
    Txn.System AccountKey AccountRow Time AccountCall AccountValue :=
  ⟨fun _ _ => true, fun _ => AccountCall.body lib settings⟩

abbrev AccountState := Txn.Pool AccountKey AccountRow Time AccountCall AccountValue

abbrev AccountEvent := Txn.Event Time AccountCall

end Chronos
