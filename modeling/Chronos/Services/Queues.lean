import Chronos.Services.Jobs

namespace Chronos

open Txn (stmt)

-- The fields of QueueUpdate.
inductive QueueField
  | paused (value : Option Bool)
  | maxConcurrency (value : Option Int)
  | defaultPriority (value : Option Int)
  | defaultMaxAttempts (value : Option Int)
  | defaultBackoffStrategy (value : Option RetryStrategy)
  | defaultBackoffBaseSeconds (value : Option Int)
  | defaultBackoffFactor (value : Option ℚ)
  | defaultBackoffMaxSeconds (value : Option Int)
  | defaultTimeoutSeconds (value : Option Int)
  | shardKey (value : Option Int)

-- `none` is a null in a NOT NULL column. Only max_concurrency may be null: it removes the cap.
def QueueField.assign (queue : Queue) : QueueField → Option Queue
  | .paused value => value.map fun x => { queue with paused := x }
  | .maxConcurrency value => some { queue with maxConcurrency := value }
  | .defaultPriority value => value.map fun x => { queue with defaultPriority := x }
  | .defaultMaxAttempts value => value.map fun x => { queue with defaultMaxAttempts := x }
  | .defaultBackoffStrategy value => value.map fun x => { queue with defaultBackoffStrategy := x }
  | .defaultBackoffBaseSeconds value =>
      value.map fun x => { queue with defaultBackoffBaseSeconds := x }
  | .defaultBackoffFactor value => value.map fun x => { queue with defaultBackoffFactor := x }
  | .defaultBackoffMaxSeconds value =>
      value.map fun x => { queue with defaultBackoffMaxSeconds := x }
  | .defaultTimeoutSeconds value => value.map fun x => { queue with defaultTimeoutSeconds := x }
  | .shardKey value => value.map fun x => { queue with shardKey := x }

-- The field constraints of the schema.
def QueueField.accepted : QueueField → Bool
  | .paused _ => true
  | .maxConcurrency value => value.all fun n => 1 ≤ n ∧ n ≤ 10000
  | .defaultPriority value => value.all fun n => -100 ≤ n ∧ n ≤ 100
  | .defaultMaxAttempts value => value.all fun n => 1 ≤ n ∧ n ≤ 20
  | .defaultBackoffStrategy _ => true
  | .defaultBackoffBaseSeconds value => value.all fun n => 0 ≤ n ∧ n ≤ 3600
  | .defaultBackoffFactor value => value.all fun x => 1 ≤ x ∧ x ≤ 10
  | .defaultBackoffMaxSeconds value => value.all fun n => 1 ≤ n ∧ n ≤ 86400
  | .defaultTimeoutSeconds value => value.all fun n => 1 ≤ n ∧ n ≤ 86400
  | .shardKey value => value.all fun n => 0 ≤ n ∧ n ≤ 255

-- How f-strings show a name: single quotes unless it has one itself and no double quote.
def pyRepr (s : String) : String :=
  let single := Char.ofNat 39
  let double := Char.ofNat 34
  let quote := if s.toList.contains single && !s.toList.contains double then double else single
  let escape (c : Char) : List Char :=
    if c = quote ∨ c = Char.ofNat 92 then [Char.ofNat 92, c] else [c]
  String.ofList (quote :: s.toList.flatMap escape ++ [quote])

namespace QueueService

def getForOrg (queueId : QueueId) (orgId : OrgId) (v : Snapshot) : Option Queue :=
  (v.queue queueId).bind fun q =>
    (v.project q.projectId).bind fun p => if p.orgId = orgId then some q else none

-- `queue` carries the fields of QueueCreate; its project is the one resolved here.
def create (user : SessionUser) (projectId : Option ProjectId) (queue : Queue) :
    Tx (Except PyError Queue) := do
  let _ ← stmt .begin
  match ← JobService.resolveProject user projectId with
  | .error err => do
      stmt .rollback
      return .error err
  | .ok project =>
      let queue := { queue with projectId := project.id, paused := false }
      if ← insertQueue queue.id queue (uqQueuesProjectName queue) then do
        stmt .commit
        stmt .rollback
        return .ok queue
      else do
        stmt .rollback
        return .error (.conflict
          ("a queue named " ++ pyRepr queue.name ++ " already exists in that project"))

-- The UPDATE of the flush sets the fields whose value differs from the one loaded.
def update (user : SessionUser) (queueId : QueueId) (fields : List QueueField) :
    Tx (Except PyError Queue) := do
  let _ ← stmt .begin
  match ← select (getForOrg queueId user.orgId) with
  | none => do
      stmt .rollback
      return .error (.notFound "queue not found")
  | some loaded =>
      let changed := fields.filter fun f => f.assign loaded ≠ some loaded
      if changed.any fun f => f.assign loaded = none then do
        stmt .rollback
        return .error .integrity
      else do
        let set (queue : Queue) : Queue := changed.foldl (fun q f => (f.assign q).getD q) queue
        let _ ← updateQueue queueId (fun _ => true) set
        stmt .commit
        stmt .rollback
        return .ok (set loaded)

def setPaused (user : SessionUser) (queueId : QueueId) (paused : Bool) :
    Tx (Except PyError Queue) :=
  update user queueId [.paused (some paused)]

def get (user : SessionUser) (queueId : QueueId) : Tx (Except PyError Queue) := do
  match ← select (getForOrg queueId user.orgId) with
  | some queue => return .ok queue
  | none => return .error (.notFound "queue not found")

def getQueue (user : SessionUser) (queueId : QueueId) : Tx (Except PyError Queue) := do
  let _ ← stmt .begin
  let queue ← get user queueId
  stmt .rollback
  return queue

-- ORDER BY created_at, a column nothing else reads: the rank is its order.
def listForOrg (orgId : OrgId) (projectId : Option ProjectId) (rank : QueueId → Nat)
    (v : Snapshot) : List Queue :=
  let ids := v.queueIds.filter fun id =>
    (getForOrg id orgId v).any fun q => projectId.all fun p => q.projectId = p
  (ids.insertionSort fun a b => rank a ≤ rank b).filterMap v.queue

-- The counts of one queue by status, all zero if it has no jobs.
def countsByStatus (orgId : OrgId) (queueId : QueueId) (v : Snapshot) (status : JobStatus) : Nat :=
  (v.jobsWhere fun e => e.job.queueId = queueId ∧ e.job.status = status ∧
    (getForOrg e.job.queueId orgId v).isSome).length

def listWithStats (user : SessionUser) (projectId : Option ProjectId) (rank : QueueId → Nat) :
    Tx (List (Queue × (JobStatus → Nat))) := do
  let _ ← stmt .begin
  let queues ← select (listForOrg user.orgId projectId rank)
  let counts ← select fun v id => countsByStatus user.orgId id v
  stmt .rollback
  return queues.map fun q => (q, counts q.id)

def stats (user : SessionUser) (queueId : QueueId) :
    Tx (Except PyError (Queue × (JobStatus → Nat))) := do
  let _ ← stmt .begin
  match ← get user queueId with
  | .error err => do
      stmt .rollback
      return .error err
  | .ok queue => do
      let counts ← select fun v id => countsByStatus user.orgId id v
      stmt .rollback
      return .ok (queue, counts queue.id)

end QueueService

end Chronos
