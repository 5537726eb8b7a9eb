import Chronos.System
import Chronos.Lifecycle.Entry
import Chronos.Txn.Triple
import Mathlib.Data.Finset.Card

namespace Chronos

open Txn (TxId)

-- The operations a call may perform on a job when it runs as `t`.
inductive Performs (t : TxId) : Call → JobOp → Prop
  | claim (a : JobRepository.ClaimArgs) (now : Time) (pass : Pass) :
      Performs t (.claimJobs a) (.claim t a.workerId a.leaseSeconds now pass)
  | extend (workerId : WorkerId) (leaseSeconds : ℚ) (rank : JobId → Nat) (now : Time) :
      Performs t (.heartbeat workerId leaseSeconds rank) (.extend workerId leaseSeconds now)
  | success (c : TxId) (job : Job) (workerId : WorkerId) (result : Option Json) (now : Time) :
      Performs t (.finalize c job workerId (.completeSuccess result))
        (.finish c t job workerId (.success result) now)
  | failure (c : TxId) (job : Job) (workerId : WorkerId) (error : String) (rng : Draw)
      (summary : Option String) (decision : FailureDecision) (now : Time)
      (hd : decideFailure (policyOf job) job.attemptCount rng = .ok decision) :
      Performs t (.finalize c job workerId (.completeFailure error rng summary))
        (.finish c t job workerId (.failure error decision) now)
  | release (c : TxId) (job : Job) (workerId : WorkerId) (now : Time) :
      Performs t (.finalize c job workerId .releaseJob) (.finish c t job workerId .release now)
  | summarize (c : TxId) (job : Job) (workerId : WorkerId) (error : String) (rng : Draw)
      (text : String) :
      Performs t (.finalize c job workerId (.completeFailure error rng (some text)))
        (.summarize text)
  | reclaim (offlineAfterSeconds : Int) (rank : JobId → Nat) (rng : JobId → Draw) (id : JobId)
      (now : Time) : Performs t (.reapOnce offlineAfterSeconds rank rng) (.reclaim (rng id) now)
  | cancel (ownerId : UserId) (jobId : JobId) (now : Time) :
      Performs t (.cancel ownerId jobId) (.cancel ownerId now)
  | requeue (ownerId : UserId) (jobId : JobId) (now : Time) :
      Performs t (.requeue ownerId jobId) (.requeue ownerId now)

-- The transaction an event is the work of, where the history records it.
def JobEvent.tx : JobEvent → Option TxId
  | .created tx => some tx
  | .claimed tx _ _ => some tx
  | .finished _ tx _ => some tx
  | _ => none

namespace JobEntry

-- `job` is the snapshot that claim `c` of the entry handed to its worker.
structure HandedOut (c : TxId) (workerId : WorkerId) (job : Job) (e : JobEntry) : Prop where
  claimed : ∃ pass, .claimed c workerId pass ∈ e.log
  id : job.id = e.job.id
  maxAttempts : job.maxAttempts = e.job.maxAttempts
  attempts : 1 ≤ job.attemptCount

structure SameKey (e e' : JobEntry) : Prop where
  owner : e.job.ownerId = e'.job.ownerId
  key : e.job.idempotencyKey = e'.job.idempotencyKey
  some : e.job.idempotencyKey.isSome = true

def Unrecorded (t : TxId) (e : JobEntry) : Prop := ∀ ev ∈ e.log, ev.tx ≠ some t

-- A RUNNING job of the queue.
def counts (q : QueueId) (e : JobEntry) : Bool := e.job.queueId = q ∧ e.job.status = .running

end JobEntry

-- A row of jobs as some transaction sees it.
def Version (m : Db) (id : JobId) (e : JobEntry) : Prop :=
  committedJob m id = some e ∨ ∃ t, pendingJob m id = some (t, e)

def QueueVersion (m : Db) (id : QueueId) (q : Queue) : Prop :=
  committedQueue m id = some q ∨ ∃ t, (m.cell (.queue id)).pending = some (t, q)

-- What no request changes of a queue.
structure Queue.SameName (q q' : Queue) : Prop where
  projectId : q'.projectId = q.projectId
  name : q'.name = q.name

-- RUNNING as committed, or flipped by a transaction that is still open.
def running (m : Db) (q : QueueId) (id : JobId) : Bool :=
  (committedJob m id).any (·.counts q) || (pendingJob m id).any fun p => p.2.counts q

def loaded (m : Db) (q : QueueId) : Finset JobId :=
  ((m.keys.filterMap Key.jobId).filter (running m q)).toFinset

-- The number of the queue's jobs that are RUNNING.
def load (m : Db) (q : QueueId) : Nat := (loaded m q).card

-- As long as the queue exists, its max_concurrency is `k`.
def CapIs (q : QueueId) (k : Int) (m : Db) : Prop :=
  ∀ row, committedQueue m q = some row → row.maxConcurrency = some k

-- The transaction has the queue row locked.
def HoldsQueue (t : TxId) (q : QueueId) (m : Db) : Prop :=
  ∃ row, (m.cell (.queue q)).pending = some (t, row)

-- What a result assumes of the runs it is about.
structure Conditions where
  -- The caps it is about, and those of them that are in force all the time.
  cap : QueueId → Option Int
  fixed : QueueId → Prop
  -- What holds of the claim, the snapshot and the row when a finalizer's UPDATE takes effect.
  finalize : Finalizer → TxId → Job → JobEntry → Prop
  -- What holds of the row when a finalizer of the claim, as `t`, stores its summary on it.
  summary : TxId → TxId → JobEntry → Prop
  -- The capped pass takes no job with an unmet dependency.
  gated : Prop
  -- The owners and keys whose enqueue calls are valid and never lose the race for the index.
  exclusive : UserId → String → Prop

def Conditions.none : Conditions :=
  ⟨fun _ => Option.none, fun _ => True, fun _ _ _ _ => True, fun _ _ _ => True, False,
    fun _ _ => False⟩

-- What a cap in force comes with: only the holder of the queue's row has flipped jobs of the
-- queue, and no more of them are RUNNING than there is room for.
structure CapOk (m : Db) (q : QueueId) (k : Int) : Prop where
  flips : ∀ id t e, pendingJob m id = some (t, e) → e.counts q = true →
    (committedJob m id).any (·.counts q) = true ∨ HoldsQueue t q m
  load : (load m q : Int) ≤ max k 0

variable (cond : Conditions)

structure Capped (m : Db) (q : QueueId) (k : Int) : Prop where
  cap : cond.cap q = some k
  row : CapIs q k m

-- What else is known when call `c` performs an operation on a committed row as `t`.
def Side (c : Call) (t : TxId) (m : Db) (e : JobEntry) : JobOp → Prop
  | .claim _ _ _ _ pass => e.Unrecorded t ∧ (pass = .uncapped ∨ cond.gated → DepsMet m e)
  | .finish claim _ snapshot workerId _ _ =>
      e.Unrecorded t ∧ e.HandedOut claim workerId snapshot ∧
        ∀ f, c = .finalize claim snapshot workerId f → cond.finalize f claim snapshot e
  | .summarize _ => ∃ claim job workerId f, c = .finalize claim job workerId f ∧
      job.id = e.job.id ∧ .finished claim t .dead ∈ e.log ∧ cond.summary t claim e
  | _ => True

structure Effect (c : Call) (t : TxId) (m : Db) (op : JobOp) (e e' : JobEntry) : Prop where
  performs : Performs t c op
  applies : op.Applies e e'
  side : Side cond c t m e op

structure Created (c : Call) (t : TxId) (m : Db) (id : JobId) (e : JobEntry) : Prop where
  call : ∃ user data ids, c = .enqueue user data ids ∧ e.job.ownerId = user.id ∧
    e.job.idempotencyKey = data.idempotencyKey
  ok : e.Ok
  id : e.job.id = id
  log : e.log = [.created t]
  attempts : e.attempts = []
  unclaimed : e.job.attemptCount = 0
  deps : ∀ d ∈ e.dependsOn, ∃ dep, committedJob m d = some dep ∧ dep.job.ownerId = e.job.ownerId
  nodup : e.dependsOn.Nodup

structure DbInv (m : Db) : Prop where
  ok : ∀ id e, committedJob m id = some e → e.Ok
  id : ∀ id e, committedJob m id = some e → e.job.id = id
  opened : ∀ id e, committedJob m id = some e → ∀ ev ∈ e.log, ∀ t, ev.tx = some t → t ∈ m.opened
  txs : ∀ id e, committedJob m id = some e → (e.log.filterMap JobEvent.tx).Nodup
  deps : ∀ id e, committedJob m id = some e → ∀ d ∈ e.dependsOn, ∃ dep, committedJob m d = some dep
  unique : ∀ id id' e e', Version m id e → Version m id' e' → e.SameKey e' → id = id'
  caps : ∀ q k, Capped cond m q k → CapOk m q k
  queues : ∀ id q, QueueVersion m id q → q.checks = true
  names : ∀ id t q q', committedQueue m id = some q → (m.cell (.queue id)).pending = some (t, q') →
    q.SameName q'
  projects : ∀ id, (m.cell (.project id)).pending = none

-- No other row changes.
def OnlyJob (id : JobId) (m m' : Db) : Prop :=
  ∀ id', id' ≠ id → m'.cell (.job id') = m.cell (.job id')

-- The rows of jobs `t` may have pending after a statement and did not have before.
inductive Pended (t : TxId) (m m' : Db) (id : JobId) (e' : JobEntry) : Prop
  | kept (h : pendingJob m id = some (t, e'))
  | updated (e : JobEntry) (hseen : (m.cell (.job id)).seen t = some e) (hsame : e.SameRow e')
      (hflip : e'.job.status = .running → e.job.status = .running)
  | flipped (e : JobEntry) (hseen : (m.cell (.job id)).seen t = some e) (hsame : e.SameRow e')
      (honly : OnlyJob id m m')
      (hcap : ∀ k, Capped cond m e.job.queueId k → HoldsQueue t e.job.queueId m ∧
        (load m e.job.queueId : Int) + 1 ≤ k)
  | inserted (honly : OnlyJob id m m') (hpending : e'.job.status = .pending)
      (hclash : ∀ id' e, Version m id' e → ¬ e.SameKey e')

structure Guar (c : Call) (t : TxId) (m m' : Db) : Prop where
  published : ∀ id e', committedJob m' id = some e' → committedJob m id = some e' ∨
    (∃ e op, committedJob m id = some e ∧ Effect cond c t m op e e') ∨
    (committedJob m id = none ∧ Created c t m id e')
  pended : ∀ id e', pendingJob m' id = some (t, e') → Pended cond t m m' id e'
  queues : ∀ id q, QueueVersion m' id q → QueueVersion m id q ∨ q.checks = true
  names : ∀ id q', (m'.cell (.queue id)).pending = some (t, q') →
    (m.cell (.queue id)).pending = some (t, q') ∨ ∀ q, committedQueue m id = some q → q.SameName q'
  projects : ∀ id, m'.cell (.project id) = m.cell (.project id)
  installs : ∀ q k, Capped cond m' q k → Capped cond m q k ∨ CapOk m' q k

-- The statements the conditions speak of: the guarded UPDATE of a finalizer, the UPDATE that stores
-- its summary, the row lock of the capped pass, the flush of a new job, a flip by the uncapped pass,
-- a COMMIT.
inductive LeaseUpdate (workerId : WorkerId) (id : JobId) :
    {β : Type} → Txn.Stmt Key Row Time β → Prop
  | mk (set : JobEntry → JobEntry) :
      LeaseUpdate workerId id (.update (Key.job id) (fun e => leaseGuard workerId e.job) set)

inductive SummaryUpdate (text : String) (id : JobId) :
    {β : Type} → Txn.Stmt Key Row Time β → Prop
  | mk : SummaryUpdate text id (.update (Key.job id)
      (fun e => (JobRepository.setAiSummary text).guard e.job)
      (JobEntry.assign (JobRepository.setAiSummary text).set))

inductive CappedLock (id : JobId) (now : Time) (q : QueueId) :
    {β : Type} → Txn.Stmt Key Row Time β → Prop
  | mk : CappedLock id now q (.lock (Key.job id) (JobRepository.cappedWhere now q))

inductive EntryInsert : {β : Type} → Txn.Stmt Key Row Time β → Prop
  | mk (id : JobId) (row : JobEntry) (clash : ∀ k, Row k → Bool) :
      EntryInsert (.insert (Key.job id) row clash)

inductive UncappedFlip (id : JobId) : {β : Type} → Txn.Stmt Key Row Time β → Prop
  | mk (tx : TxId) (workerId : WorkerId) (leaseSeconds : ℚ) (now : Time) :
      UncappedFlip id (.write (Key.job id) (JobEntry.claim tx workerId leaseSeconds now .uncapped))

inductive Commits : {β : Type} → Txn.Stmt Key Row Time β → Prop
  | mk : Commits .commit

-- The project a request is about: the one it names, or any of the caller's organization.
def HasProject (m : Db) (user : SessionUser) (projectId : Option ProjectId) : Prop :=
  ∃ id p, (m.cell (.project id)).committed = some p ∧ p.orgId = user.orgId ∧
    ∀ i, projectId = some i → i = id

-- What makes enqueue's body valid beyond its schema: Postgres can store its values, the project and
-- the dependencies exist and belong to the caller, and no dependency is named twice.
structure ValidBody (m : Db) (user : SessionUser) (data : JobCreate) : Prop where
  stored : data.storable = true
  queue : storableText data.queue = true
  project : HasProject m user data.projectId
  deps : ∀ d ∈ data.dependsOn, ∃ e, committedJob m d = some e ∧ e.job.ownerId = user.id
  nodup : data.dependsOn.Nodup

def HasKey (ownerId : UserId) (key : String) (e : JobEntry) : Prop :=
  e.job.ownerId = ownerId ∧ e.job.idempotencyKey = some key

def admits (c : Call) (m : Db) : Prop :=
  ∀ user data ids key, c = .enqueue user data ids → data.idempotencyKey = some key →
    cond.exclusive user.id key → ValidBody m user data

structure Permits {β : Type} (c : Call) (t : TxId) (st : Txn.Stmt Key Row Time β) (m : Db) :
    Prop where
  finalize : ∀ claim job workerId f, c = .finalize claim job workerId f →
    LeaseUpdate workerId job.id st → ∀ e, committedJob m job.id = some e →
      leaseGuard workerId e.job = true → cond.finalize f claim job e
  summary : ∀ claim job workerId error rng text,
    c = .finalize claim job workerId (.completeFailure error rng (some text)) →
      SummaryUpdate text job.id st → ∀ e, committedJob m job.id = some e → cond.summary t claim e
  gated : ∀ id now q, CappedLock id now q st → cond.gated →
    ∀ e, (m.cell (.job id)).seen t = some e → (m.cell (.job id)).freeFor t = true →
      JobRepository.cappedWhere now q e = true → DepsMet m e
  exclusive : ∀ user data ids key, c = .enqueue user data ids →
    data.idempotencyKey = some key → cond.exclusive user.id key → EntryInsert st →
      ∀ id e, committedJob m id = some e → ¬ HasKey user.id key e
  -- Of the caps that are not in force all the time: the uncapped pass flips no job of the queue
  -- while it is capped, and the commit that puts the cap in force leaves the queue within it.
  uncapped : ∀ id, UncappedFlip id st → ∀ e, pendingJob m id = some (t, e) →
    ¬ cond.fixed e.job.queueId → ∀ k, ¬ Capped cond m e.job.queueId k
  installs : Commits st → ∀ q k, ¬ cond.fixed q → Capped cond (m.commit t) q k →
    Capped cond m q k ∨ CapOk (m.commit t) q k

-- No history has an event of `t`.
def Unrecorded (t : TxId) (m : Db) : Prop :=
  ∀ id e, committedJob m id = some e → e.Unrecorded t

-- What is known of a call's value, from its return on.
def post (c : Call) (t : TxId) (v : Value) (m : Db) : Prop :=
  match c, v with
  | .claimJobs args, .jobs jobs =>
      (∀ job ∈ jobs, ∃ e, committedJob m job.id = some e ∧ e.HandedOut t args.workerId job) ∧
      ∀ id e workerId pass, committedJob m id = some e → .claimed t workerId pass ∈ e.log →
        ∃ job ∈ jobs, job.id = id
  | .finalize claim job workerId _, .bool done =>
      (∃ e, committedJob m job.id = some e ∧ (∃ pass, .claimed claim workerId pass ∈ e.log) ∧
        e.currentClaim ≠ some claim ∧ (done = true → ∃ how, .finished claim t how ∈ e.log)) ∧
      (done = false → Unrecorded t m)
  | .finalize _ _ _ _, .raised _ => False
  | .reapOnce _ _ _, .raised _ => False
  | .enqueue user data _, v =>
      ∀ key, data.idempotencyKey = some key → cond.exclusive user.id key →
        ∃ job created, v = .enqueued job created ∧ ∃ e, committedJob m job.id = some e ∧
          HasKey user.id key e ∧ (created = true ↔ .created t ∈ e.log)
  | _, _ => True

-- The caps that are taken to be fixed are those of the committed queue rows.
def CapsFixed (m : Db) : Prop := ∀ q k, cond.fixed q → cond.cap q = some k → CapIs q k m

def spec : Txn.Spec Key Row Time Call Value where
  assume := CapsFixed cond
  admits := admits cond
  permits c t st m := Permits cond c t st m
  inv := DbInv cond
  guar := Guar cond
  post := post cond

end Chronos
