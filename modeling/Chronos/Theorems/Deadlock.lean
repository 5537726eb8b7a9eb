import Chronos.Worker.Locks
import Chronos.Txn.Alone
import Chronos.Txn.Progress
import Chronos.Refinement.Checks
import Mathlib.Logic.Relation

namespace Chronos

open Txn (TxId Reaches Rules Locks WaitsFor)

-- The execution side: claims, finalizers, sweeps, cancels and requeues in any number and with any
-- arguments, and the heartbeats of the workers that are registered.
def executionMay (s : State) : Call → Bool
  | .heartbeat w _ _ => (s.mem.cell (.worker w)).committed.isSome
  | .claimJobs _ => true
  | .finalize _ _ _ _ => true
  | .reapOnce _ _ _ => true
  | .cancel _ _ => true
  | .requeue _ _ => true
  | _ => false

def executionSystem : Txn.System Key Row Time Call Value := ⟨executionMay, Call.body⟩

-- Of all calls only a heartbeat and a sweep wait while they hold a row: the heartbeat holds its
-- worker and waits for a job, the sweep holds its advisory lock and waits for a worker.
def waitsForJob (held : Locks Key) : Call → Prop
  | .heartbeat w _ _ => held.must (.worker w)
  | .claimJobs _ => False
  | .reapOnce _ _ _ => False
  | _ => ∀ k, ¬ held.may k

def waitsForWorker (held : Locks Key) (id : WorkerId) : Call → Prop
  | .heartbeat _ _ _ => (∀ k, ¬ held.may k) ∨ held.must (.worker id)
  | .reapOnce _ _ _ => held.must (.advisory ExecutionService.REAPER_ADVISORY_LOCK_KEY)
  | _ => False

-- What the rows hold does not matter here. None of the calls inserts a row.
def lockRules : Rules Key Row Call where
  ok _ _ := True
  rel _ _ _ base _ := base.isSome = true
  waits _ c held
    | .job _ => waitsForJob held c
    | .worker id => waitsForWorker held id c
    | _ => False
  present c k :=
    match c with
    | .heartbeat w _ _ => k = .worker w
    | _ => False

section Rules

variable {t : TxId}

theorem isSome_base {k : Key} {base : Option (Row k)} {v : Row k}
    (h : base = some v ∨ base.isSome = true) : base.isSome = true := by
  rcases h with rfl | h
  · rfl
  · exact h

theorem within_lock_heartbeat (w : WorkerId) (leaseSeconds : ℚ) (rank : JobId → Nat) :
    (Call.body t (.heartbeat w leaseSeconds rank)).Within lockRules t
      (.heartbeat w leaseSeconds rank) (fun _ _ => True) .none := by
  refine (within_heartbeat (P := fun held => held.must (.worker w))
    (Q := fun held => held.must (.worker w)) ?_ ?_ ?_ ?_ ?_ ?_).bind fun _ _ _ => trivial
  · exact fun now => ⟨.inl fun _ hk => hk, fun _ _ hbase _ _ => ⟨trivial, isSome_base hbase⟩⟩
  · intro got hgot
    refine .inr ⟨?_, rfl⟩
    by_contra hno
    exact hgot (by simpa using hno) rfl
  · exact fun held hheld => ⟨.inr hheld, fun _ _ hbase _ _ => ⟨trivial, isSome_base hbase⟩⟩
  · exact fun got held hheld => .inl hheld
  · exact fun now id held hheld => ⟨hheld, fun _ _ hbase _ =>
      ⟨isSome_base hbase, fun _ => ⟨trivial, isSome_base hbase⟩⟩⟩
  · exact fun id got held hheld => .inl hheld

theorem within_lock_reapOnce (offlineAfterSeconds : Int) (rank : JobId → Nat)
    (rng : JobId → Draw) :
    (Call.body t (.reapOnce offlineAfterSeconds rank rng)).Within lockRules t
      (.reapOnce offlineAfterSeconds rank rng) (fun _ _ => True) .none := by
  refine (within_reapOnce (P := fun held =>
    held.must (.advisory ExecutionService.REAPER_ADVISORY_LOCK_KEY)) ?_ ?_ ?_ ?_ ?_ ?_ ?_).bind
      fun _ _ _ => trivial
  · exact fun _ _ => rfl
  · exact .inr ⟨trivial, rfl⟩
  · exact fun _ _ _ _ _ _ => rfl
  · exact fun _ _ _ _ _ _ hbase _ => ⟨trivial, hbase⟩
  · exact fun _ _ _ hheld => ⟨hheld, fun _ _ hbase _ =>
      ⟨isSome_base hbase, fun _ => ⟨trivial, isSome_base hbase⟩⟩⟩
  · exact fun _ _ _ hheld => .inl hheld
  · exact fun _ _ _ hheld => .inl hheld

section Claim

variable {a : JobRepository.ClaimArgs} {now : Time} {held : Locks Key}

theorem within_lock_updateCandidates (pass : Pass) (es : List JobEntry) :
    (JobRepository.updateCandidates t a now pass es).Within lockRules t (.claimJobs a)
      (fun _ _ => True) held := by
  induction es generalizing held with
  | nil => trivial
  | cons e es ih =>
      exact .stmt (fun _ _ hbase _ => ⟨trivial, hbase⟩) fun _ _ => ih.bind fun _ _ _ => trivial

theorem within_lock_claimWhere (pass : Pass) (scan : Snapshot → List JobId × (JobEntry → Bool))
    (limit : Nat) :
    (JobRepository.claimWhere t a now pass scan limit).Within lockRules t (.claimJobs a)
      (fun _ _ => True) held := by
  refine .stmt trivial fun found _ => ?_
  refine (within_lockRows (P := fun _ => True) ?_ (fun _ _ _ _ => trivial) limit found.1
    trivial).bind fun locked _ _ => within_lock_updateCandidates pass locked
  exact fun _ _ _ _ _ => rfl

theorem within_lock_lockQueues (queues : List String) (ids : List QueueId) :
    (JobRepository.lockQueues queues ids).Within lockRules t (.claimJobs a)
      (fun _ _ => True) held := by
  induction ids generalizing held with
  | nil => trivial
  | cons id ids ih =>
      exact .stmt (fun _ _ => rfl) fun _ _ => ih.bind fun _ _ _ => trivial

theorem within_lock_claimFromQueues (rows : List (QueueId × Int)) (remaining : Nat) :
    (JobRepository.claimFromQueues t a now rows remaining).Within lockRules t (.claimJobs a)
      (fun _ _ => True) held := by
  induction rows generalizing remaining held with
  | nil => trivial
  | cons row rows ih =>
      unfold JobRepository.claimFromQueues
      split
      · trivial
      · refine .stmt trivial fun running _ => ?_
        dsimp only
        split
        · exact ih remaining
        · exact (within_lock_claimWhere _ _ _).bind fun batch _ _ =>
            (ih (remaining - batch.length)).bind fun _ _ _ => trivial

theorem within_lock_startAttempts (jobs : List Job) :
    (ExecutionService.startAttempts a.workerId now jobs).Within lockRules t (.claimJobs a)
      (fun _ _ => True) held := by
  induction jobs generalizing held with
  | nil => trivial
  | cons job jobs ih => exact .stmt (fun _ _ hbase _ => ⟨trivial, hbase⟩) fun _ _ => ih

theorem within_lock_claimJobs :
    (Call.body t (.claimJobs a)).Within lockRules t (.claimJobs a) (fun _ _ => True) .none := by
  have hbatch (now : Time) : (JobRepository.claimBatch t a now).Within lockRules t (.claimJobs a)
      (fun _ _ => True) .none := by
    refine (within_lock_claimWhere _ _ _).bind fun claimed held _ => ?_
    dsimp only
    split
    · refine Txn.Prog.Within.bind (Q := fun _ _ => True) ?_ fun _ _ _ => trivial
      exact .stmt trivial fun ids _ => (within_lock_lockQueues _ _).bind fun rows _ _ =>
        within_lock_claimFromQueues rows _
    · trivial
  refine Txn.Prog.Within.bind (Q := fun _ _ => True) ?_ fun _ _ _ => trivial
  refine .stmt trivial fun now _ => (hbatch now).bind fun jobs _ _ => ?_
  exact (within_lock_startAttempts jobs).bind fun _ _ _ => .stmt trivial fun _ _ => within_leave

end Claim

section Finalizers

variable {claim : TxId} {job : Job} {workerId : WorkerId} {f : Finalizer}

theorem within_lock_finalize (u : GuardedUpdate) (how : Finish) (status : AttemptStatus)
    (error : Option String) (now : Time) :
    (ExecutionService.finalize t claim job u how status error now).Within lockRules t
      (.finalize claim job workerId f) (fun _ held => ∀ k, ¬ held.may k) .none := by
  refine .stmt ⟨fun _ hk => hk, fun _ _ hbase _ _ => ⟨trivial, isSome_base hbase⟩⟩ fun updated _ => ?_
  cases updated with
  | none => exact .stmt trivial fun _ _ => .stmt trivial fun _ _ => fun _ hk => hk
  | some e =>
      refine .stmt (fun _ _ hbase _ => ⟨trivial, hbase⟩) fun _ _ => ?_
      exact .stmt trivial fun _ _ => .stmt trivial fun _ _ => fun _ hk => hk

theorem within_lock_storeSummary (jobId : JobId) (summary : String) {held : Locks Key}
    (hheld : ∀ k, ¬ held.may k) :
    (ExecutionService.storeSummary jobId summary).Within lockRules t
      (.finalize claim job workerId f) (fun _ _ => True) held := by
  refine .stmt trivial fun _ _ =>
    .stmt ⟨hheld, fun _ _ hbase _ _ => ⟨trivial, isSome_base hbase⟩⟩ fun _ _ => ?_
  exact .stmt trivial fun _ _ => .last trivial fun _ _ => trivial

theorem within_lock_body :
    (Call.body t (.finalize claim job workerId f)).Within lockRules t
      (.finalize claim job workerId f) (fun _ _ => True) .none := by
  cases f with
  | completeSuccess result =>
      refine Txn.Prog.Within.bind (Q := fun _ _ => True) ?_ fun _ _ _ => trivial
      exact .stmt trivial fun now _ => (within_lock_finalize _ _ _ _ now).mono fun _ _ _ => trivial
  | releaseJob =>
      refine Txn.Prog.Within.bind (Q := fun _ _ => True) ?_ fun _ _ _ => trivial
      exact .stmt trivial fun now _ => (within_lock_finalize _ _ _ _ now).mono fun _ _ _ => trivial
  | completeFailure error rng summary =>
      refine Txn.Prog.Within.bind (Q := fun _ _ => True) ?_ fun _ _ _ => trivial
      unfold ExecutionService.completeFailure
      cases decideFailure (policyOf job) job.attemptCount rng with
      | error err => trivial
      | ok decision =>
          refine .stmt trivial fun now _ => (within_lock_finalize _ _ _ _ now).bind ?_
          intro done held hheld
          split
          · cases summary with
            | none => trivial
            | some text =>
                dsimp only
                split
                · trivial
                · exact (within_lock_storeSummary _ _ hheld).bind fun _ _ _ => trivial
          · trivial

end Finalizers

-- Cancel and requeue.
theorem within_lock_transition {c : Call} {ownerId : UserId} {jobId : JobId}
    {u : Time → GuardedUpdate} {event : JobEvent} {conflict : String}
    (hwaits : waitsForJob .none c) :
    (JobService.transition ownerId jobId u event conflict).Within lockRules t c
      (fun _ _ => True) .none := by
  refine .stmt trivial fun now _ => ?_
  refine .stmt ⟨hwaits, fun _ _ hbase _ _ => ⟨trivial, isSome_base hbase⟩⟩ fun row _ => ?_
  cases row with
  | some e => exact .stmt trivial fun _ _ => .stmt trivial fun _ _ => trivial
  | none =>
      refine .stmt trivial fun job _ => .stmt trivial fun _ _ => ?_
      cases job <;> trivial

theorem begins_execution {s : State} {c : Call} (hmay : executionMay s c = true) :
    Txn.Begins lockRules executionSystem s t c where
  present k hk := by
    cases c with
    | heartbeat w leaseSeconds rank =>
        obtain rfl : k = .worker w := hk
        exact hmay
    | _ => exact hk.elim
  body := by
    cases c with
    | heartbeat w leaseSeconds rank => exact within_lock_heartbeat w leaseSeconds rank
    | claimJobs a => exact within_lock_claimJobs
    | finalize claim job workerId f => exact within_lock_body
    | reapOnce offlineAfterSeconds rank rng => exact within_lock_reapOnce offlineAfterSeconds rank rng
    | cancel ownerId jobId =>
        exact (within_lock_transition (c := .cancel ownerId jobId) fun _ hk => hk).bind
          fun _ _ _ => trivial
    | requeue ownerId jobId =>
        exact (within_lock_transition (c := .requeue ownerId jobId) fun _ hk => hk).bind
          fun _ _ _ => trivial
    | _ => simp [executionMay] at hmay

end Rules

-- The row of the UPDATE a transaction stands before.
def standsBefore (s : State) (t : TxId) : Option Key :=
  (s.thread t).bind fun th => th.rest.bind Txn.Prog.updates

def runsHeartbeat (s : State) (t : TxId) : Bool :=
  match s.thread t with
  | some ⟨.heartbeat _ _ _, _⟩ => true
  | _ => false

def runsSweep (s : State) (t : TxId) : Bool :=
  match s.thread t with
  | some ⟨.reapOnce _ _ _, _⟩ => true
  | _ => false

def lockedBy (s : State) (u : TxId) (k : Key) : Bool :=
  (s.mem.cell k).pending.any fun p => p.1 = u

-- A heartbeat stands before a job that `u` has locked: `u` took the job's row after the heartbeat
-- had selected it, or the heartbeat's worker has lost the job since.
def awaitsJob (s : State) (t u : TxId) : Bool :=
  match standsBefore s t with
  | some (.job id) => runsHeartbeat s t && lockedBy s u (.job id) && u != t
  | _ => false

-- A sweep stands before a worker whose row `u` has locked.
def awaitsWorker (s : State) (t u : TxId) : Bool :=
  match standsBefore s t with
  | some (.worker id) => runsSweep s t && lockedBy s u (.worker id) && u != t
  | _ => false

-- A heartbeat meets a sweep that has one of the heartbeat's jobs and is about to declare a worker
-- dead that has just resumed its heartbeat; or it meets another heartbeat over a job, and that one
-- a heartbeat over a job in turn.
def crossing (s : State) : Bool :=
  s.mem.opened.any fun t => s.mem.opened.any fun u => s.mem.opened.any fun v =>
    awaitsJob s t u && (awaitsWorker s u v || awaitsJob s u v) && runsHeartbeat s v

section Cycle

variable {s : State} {t u v p : TxId}

def holds (s : State) (t : TxId) (k : Key) : Prop := ∃ v, (s.mem.cell k).pending = some (t, v)

theorem holds_unique {k : Key} (ht : holds s t k) (hu : holds s u k) : t = u := by
  obtain ⟨v, hv⟩ := ht
  obtain ⟨v', hv'⟩ := hu
  rw [hv, Option.some.injEq, Prod.mk.injEq] at hv'
  exact hv'.1

theorem heartbeat_of_awaitsJob (h : awaitsJob s t u = true) : runsHeartbeat s t = true := by
  unfold awaitsJob at h
  split at h
  · simp only [Bool.and_eq_true] at h
    exact h.1.1
  · cases h

theorem opened_of_heartbeat (hs : Txn.Ruled lockRules s) (h : runsHeartbeat s t = true) :
    t ∈ s.mem.opened := by
  refine hs.opened t fun hnone => ?_
  rw [runsHeartbeat, hnone] at h
  cases h

-- A sweep that waits for a worker has its advisory lock.
structure SweepWaits (s : State) (t u : TxId) : Prop where
  worker : awaitsWorker s t u = true
  lock : holds s t (.advisory ExecutionService.REAPER_ADVISORY_LOCK_KEY)
  ne : u ≠ t

-- Whoever waits while another waits for him.
theorem waits_cases (hs : Txn.Ruled lockRules s) (h : WaitsFor s t u) (hp : WaitsFor s p t) :
    awaitsJob s t u = true ∨ SweepWaits s t u := by
  obtain ⟨k₀, v₀, hv₀⟩ := hp.held
  have hinserts : ∀ t c k v, ¬ lockRules.rel t c k none v := fun _ _ _ _ h => nomatch h
  obtain ⟨c, rest, k, v, ht, hk, hv, hne⟩ := hs.updates_of_waits hinserts h
  obtain ⟨held, hheld, hwaits, -⟩ := hs.waiting ht hk hv
  have hmay : ¬ ∀ k, ¬ held.may k := fun hno => hno k₀ (hheld.may k₀ v₀ hv₀)
  have hbefore : standsBefore s t = some k := by simp [standsBefore, ht, hk]
  have hlocked : lockedBy s u k = true := by simp [lockedBy, hv]
  cases k with
  | job id =>
      cases c with
      | heartbeat w leaseSeconds rank =>
          exact .inl (by simp [awaitsJob, hbefore, runsHeartbeat, ht, hlocked, hne])
      | claimJobs a => exact hwaits.elim
      | reapOnce offlineAfterSeconds rank rng => exact hwaits.elim
      | _ => exact absurd hwaits hmay
  | worker id =>
      cases c with
      | heartbeat w leaseSeconds rank =>
          rcases hwaits with hno | hmust
          · exact absurd hno hmay
          · exact absurd (holds_unique ⟨v, hv⟩ (hheld.must _ hmust)) hne
      | reapOnce offlineAfterSeconds rank rng =>
          refine .inr ⟨?_, hheld.must _ hwaits, hne⟩
          simp [awaitsWorker, hbefore, runsSweep, ht, hlocked, hne]
      | _ => exact hwaits.elim
  | _ => exact hwaits.elim

-- Every transaction on a cycle waits for another one on it, and is waited for.
theorem waits_of_cycle (hs : Txn.Ruled lockRules s) (h : Relation.TransGen (WaitsFor s) t t) :
    ∃ u, Relation.TransGen (WaitsFor s) u u ∧ (awaitsJob s t u = true ∨ SweepWaits s t u) := by
  obtain ⟨u, htu, hut⟩ := Relation.TransGen.head'_iff.mp h
  obtain ⟨p, -, hpt⟩ := Relation.TransGen.tail'_iff.mp h
  exact ⟨u, .tail' hut htu, waits_cases hs htu hpt⟩

-- One sweep at a time: on a cycle a sweep waits for a heartbeat.
theorem SweepWaits.next (hs : Txn.Ruled lockRules s) (h : SweepWaits s t u)
    (hcycle : Relation.TransGen (WaitsFor s) u u) :
    ∃ v, Relation.TransGen (WaitsFor s) v v ∧ awaitsJob s u v = true := by
  obtain ⟨v, hv, hbeat | hsweep⟩ := waits_of_cycle hs hcycle
  · exact ⟨v, hv, hbeat⟩
  · exact absurd (holds_unique hsweep.lock h.lock) h.ne

theorem crossing_of_waits (hs : Txn.Ruled lockRules s) (ht : awaitsJob s t u = true)
    (hu : awaitsWorker s u v = true ∨ awaitsJob s u v = true) (huopen : s.thread u ≠ none)
    (hv : runsHeartbeat s v = true) : crossing s = true := by
  refine List.any_eq_true.mpr ⟨t, opened_of_heartbeat hs (heartbeat_of_awaitsJob ht), ?_⟩
  refine List.any_eq_true.mpr ⟨u, hs.opened u huopen, List.any_eq_true.mpr ⟨v, ?_, ?_⟩⟩
  · exact opened_of_heartbeat hs hv
  · rcases hu with hu | hu <;> simp [ht, hu, hv]

theorem thread_of_cycle (h : Relation.TransGen (WaitsFor s) t t) : s.thread t ≠ none := by
  obtain ⟨u, hwaits, -⟩ := Relation.TransGen.head'_iff.mp h
  exact hwaits.thread

theorem crossing_of_beat (hs : Txn.Ruled lockRules s) (ht : awaitsJob s t u = true)
    (h : Relation.TransGen (WaitsFor s) u u) : crossing s = true := by
  obtain ⟨v, hv, hbeat | hsweep⟩ := waits_of_cycle hs h
  · obtain ⟨w, hw, hbeat' | hsweep⟩ := waits_of_cycle hs hv
    · exact crossing_of_waits hs ht (.inr hbeat) (thread_of_cycle h) (heartbeat_of_awaitsJob hbeat')
    · obtain ⟨_, -, hbeat'⟩ := hsweep.next hs hw
      exact crossing_of_waits hs hbeat (.inl hsweep.worker) (thread_of_cycle hv)
        (heartbeat_of_awaitsJob hbeat')
  · obtain ⟨_, -, hbeat⟩ := hsweep.next hs hv
    exact crossing_of_waits hs ht (.inl hsweep.worker) (thread_of_cycle h)
      (heartbeat_of_awaitsJob hbeat)

theorem crossing_of_cycle (hs : Txn.Ruled lockRules s) (h : Relation.TransGen (WaitsFor s) t t) :
    crossing s = true := by
  obtain ⟨u, hu, hbeat | hsweep⟩ := waits_of_cycle hs h
  · exact crossing_of_beat hs hbeat hu
  · obtain ⟨v, hv, hbeat⟩ := hsweep.next hs hu
    exact crossing_of_beat hs hbeat hv

end Cycle

-- A store with no transaction under way.
structure Quiet (m : Db) : Prop where
  wf : m.WF
  unlocked : ∀ k, (m.cell k).pending = none

-- Where no heartbeat crosses a sweep or other heartbeats, transactions do not wait for each other
-- in a circle.
theorem execution_deadlock_free {m : Db} (hm : Quiet m) {s : State}
    {ok : State → Event → State → Prop} (h : Reaches executionSystem.step ok (Txn.Pool.init m) s)
    (hcross : crossing s = false) (t : TxId) : ¬ Relation.TransGen (WaitsFor s) t t := by
  intro hcycle
  have hs : Txn.Ruled lockRules s :=
    .of_reaches (.init hm.wf (fun _ _ _ => trivial) hm.unlocked) (fun _ _ _ => begins_execution) h
  rw [crossing_of_cycle hs hcycle] at hcross
  cases hcross

section Example

-- A worker with one job, whose lease runs out at second 30.
def leasedWorker : Worker where
  id := 5
  name := "worker"
  status := .online
  concurrency := 4
  lastHeartbeatAt := 0
  startedAt := 0
  stoppedAt := none

def leasedEntry : JobEntry where
  job :=
    { JobService.buildJob 7 0 (Queue.fresh 0 0 "default") (exampleBody none []) none 0 with
      status := .running
      lockedBy := some 5
      attemptCount := 1
      leaseExpiresAt := some 30 }
  attempts := []
  dependsOn := []
  log := [.created 0]

def leasedRows : List (Sigma Row) :=
  [⟨.worker 5, leasedWorker⟩, ⟨.job 7, leasedEntry⟩,
    ⟨.advisory ExecutionService.REAPER_ADVISORY_LOCK_KEY, ()⟩]

def leasedDb : Db := Txn.Store.seed leasedRows 0

theorem leasedDb_quiet : Quiet leasedDb := by
  have hsettled := @Txn.Settled.seed _ _ _ _ leasedRows (by decide) (0 : Time)
  exact ⟨hsettled.wf, hsettled.unlocked⟩

def executionAfter (events : List Event) : State :=
  (Txn.runAll executionSystem.step (fun _ _ _ => true) (Txn.Pool.init leasedDb) events).getD
    (Txn.Pool.init leasedDb)

theorem reaches_executionAfter (events : List Event) :
    executionSystem.Reachable leasedDb (executionAfter events) :=
  (Reaches.getD_runAll (fun _ _ _ => true) events).mono fun _ _ _ _ => trivial

-- The sweep has locked the job, the heartbeat the worker.
def sweepingEvents (n : Nat) : List Event :=
  .tick 100 :: whole 1 (.reapOnce 60 id fun _ => Draw.zero) n ++ whole 2 (.heartbeat 5 30 id) 4

theorem mem_blockers_iff (events : List Event) (t u : TxId) :
    u ∈ (executionAfter events).blockers t ↔ WaitsFor (executionAfter events) t u :=
  Txn.Pool.mem_blockers (Txn.System.wf leasedDb_quiet.wf (reaches_executionAfter events))

theorem sweep_meets_heartbeat :
    ¬ ∀ m s, Quiet m → executionSystem.Reachable m s →
      ∀ t, ¬ Relation.TransGen (WaitsFor s) t t := by
  intro h
  have hsweep : 2 ∈ (executionAfter (sweepingEvents 7)).blockers 1 := by decide +kernel
  have hbeat : 1 ∈ (executionAfter (sweepingEvents 7)).blockers 2 := by decide +kernel
  refine h leasedDb _ leasedDb_quiet (reaches_executionAfter (sweepingEvents 7)) 1 ?_
  exact .tail (.single ((mem_blockers_iff _ _ _).mp hsweep)) ((mem_blockers_iff _ _ _).mp hbeat)

-- The heartbeat waits for the sweep, and the sweep for nobody.
theorem execution_deadlock_free_waiting :
    1 ∈ (executionAfter (sweepingEvents 6)).blockers 2 ∧
      ¬ Relation.TransGen (WaitsFor (executionAfter (sweepingEvents 6))) 1 1 := by
  constructor
  · decide +kernel
  · exact execution_deadlock_free leasedDb_quiet (reaches_executionAfter (sweepingEvents 6))
      (by decide +kernel) 1

end Example

end Chronos
