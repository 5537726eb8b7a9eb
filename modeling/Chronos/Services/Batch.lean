import Chronos.Services.Jobs

namespace Chronos

open Txn (stmt TxId)

namespace JobService

-- An item of a batch, with the ids the database hands out for it.
structure BatchItem where
  data : JobCreate
  jobId : JobId
  queueId : QueueId

-- A key of queue_cache.
def BatchItem.target (item : BatchItem) : Option ProjectId × String :=
  (item.data.projectId, item.data.queue)

def BatchItem.job (item : BatchItem) (ownerId : UserId) (queue : Queue) (batchId : Nat)
    (now : Time) : Job :=
  { buildJob item.jobId ownerId queue item.data none now with batchId := some batchId }

-- The flush of the jobs staged so far, in the order they were added. `false` is the
-- IntegrityError of the first row that is refused.
def flush (tx : TxId) : List Job → Tx Bool
  | [] => pure true
  | job :: jobs =>
      if job.checks then do
        let row : JobEntry := { job := job, attempts := [], dependsOn := [], log := [.created tx] }
        if ← insertEntry job.id row (uqJobsOwnerIdempotency job) then flush tx jobs
        else return false
      else return false

-- _resolve_queue
def resolveTarget (user : SessionUser) (item : BatchItem) : Tx (Except PyError Queue) := do
  match ← resolveProject user item.data.projectId with
  | .error err => return .error err
  | .ok project => resolveQueue item.queueId project item.data.queue

def batchConflict : PyError :=
  .conflict ("an idempotency key in the batch collides with an existing job (or repeats within " ++
    "the batch); the batch was rejected")

-- The loop of enqueue_batch, up to the flush of its commit. The first SELECT of _resolve_queue
-- flushes what is staged, and what that raises is not caught. A value that Postgres refuses fails
-- a flush before it comes to the rows; `storable` is that there is none among the staged jobs.
def stageItems (tx : TxId) (user : SessionUser) (batchId : Nat) (now : Time) :
    List BatchItem → List ((Option ProjectId × String) × Queue) → List Job → Bool →
      Tx (Except PyError (List Job))
  | [], _, staged, storable =>
      if storable then do
        if ← flush tx staged then return .ok [] else return .error batchConflict
      else return .error .dataError
  | item :: items, cache, staged, storable =>
      match cache.lookup item.target with
      | some queue => do
          let job := item.job user.id queue batchId now
          let rest ← stageItems tx user batchId now items cache (staged ++ [job])
            (storable && item.data.storable)
          return rest.map (job :: ·)
      | none =>
          if storable then do
            if ← flush tx staged then
              match ← resolveTarget user item with
              | .error err => return .error err
              | .ok queue =>
                  let job := item.job user.id queue batchId now
                  let rest ← stageItems tx user batchId now items ((item.target, queue) :: cache)
                    [job] item.data.storable
                  return rest.map (job :: ·)
            else return .error .integrity
          else return .error .dataError

def enqueueBatch (tx : TxId) (user : SessionUser) (items : List BatchItem) (batchId : Nat) :
    Tx (Except PyError (Nat × List Job)) := do
  let now ← stmt .begin
  match ← stageItems tx user batchId now items [] [] true with
  | .ok jobs => do
      stmt .commit
      stmt .rollback
      return .ok (batchId, jobs)
  | .error err => do
      stmt .rollback
      return .error err

end JobService

end Chronos
