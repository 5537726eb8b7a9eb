import Chronos.Txn.Dated
import Chronos.Theorems.LeaseOrder

namespace Chronos

open Txn (TxId Reaches)
open JobRepository

-- The jobs a sweep changes had expired when it began; what a claim has started it has started at
-- its now().
def jobDates : Call → Txn.Dates Key Row Time
  | .reapOnce _ _ _, now, .job _, base, _ => ∃ e, base = some e ∧ expiredWhere now e.job = true
  | .claimJobs _, now, .job _, base, row =>
      ∃ e, base = some e ∧ (row.job = e.job ∨ row.job.startedAt = some now)
  | _, _, _, _, _ => True

-- The workers a sweep changes were stale when it began.
def workerDates : Call → Txn.Dates Key Row Time
  | .reapOnce offlineAfterSeconds _ _, now, .worker _, base, _ =>
      ∃ row, base = some row ∧ ExecutionService.staleWhere offlineAfterSeconds now row = true
  | _, _, _, _, _ => True

-- The entry of a job is in the row of its id.
def HoldsOwnId (k : Key) (row : Row k) : Prop :=
  match k with
  | .job id => row.job.id = id
  | _ => True

def isDated : Call → Prop
  | .reapOnce _ _ _ => True
  | .claimJobs _ => True
  | _ => False

def isSweep : Call → Prop
  | .reapOnce _ _ _ => True
  | _ => False

section Sweep

variable {offlineAfterSeconds : Int} {rank : JobId → Nat} {rng : JobId → Draw} {now : Time} {α : Type}
  {held : Txn.Locks Key}

-- A part of a sweep.
abbrev SweepDates (offlineAfterSeconds : Int) (rank : JobId → Nat) (rng : JobId → Draw) (now : Time)
    (Q : α → Txn.Locks Key → Prop) (held : Txn.Locks Key) (p : Tx α) : Prop :=
  p.KeepsDates (jobDates (.reapOnce offlineAfterSeconds rank rng)) HoldsOwnId now Q held

theorem dated_leave (a : α) : SweepDates offlineAfterSeconds rank rng now (fun _ _ => True) held
    (ExecutionService.exit >>= fun _ => pure a) :=
  .stmt trivial fun _ _ => .pure trivial

-- The rows that are returned are held for certain.
theorem dated_lockExpired (n : Nat) (ids : List JobId) : SweepDates offlineAfterSeconds rank rng now
    (fun es held' => (∀ k, held.must k → held'.must k) ∧ ∀ e ∈ es, held'.must (.job e.job.id)) held
    (lockRows (fun e => expiredWhere now e.job) n ids) := by
  induction ids generalizing n held with
  | nil =>
      cases n <;> exact .pure ⟨fun _ hk => hk, fun _ he => absurd he List.not_mem_nil⟩
  | cons id ids ih =>
      cases n with
      | zero => exact .pure ⟨fun _ hk => hk, fun _ he => absurd he List.not_mem_nil⟩
      | succ n =>
          refine .stmt (fun e hexpired => ⟨e, rfl, hexpired⟩) fun row hrow => ?_
          cases row with
          | none =>
              refine (ih (n + 1)).mono fun es held' h => ?_
              exact ⟨fun k hk => h.1 k (.inl hk), h.2⟩
          | some e =>
              obtain rfl : e.job.id = id := hrow e rfl
              refine (ih n).bind fun es held' h => .pure ?_
              refine ⟨fun k hk => h.1 k (.inl hk), fun d hd => ?_⟩
              rcases List.mem_cons.mp hd with rfl | hd
              · exact h.1 _ (.inr ⟨rfl, rfl⟩)
              · exact h.2 d hd

theorem dated_sweepWrite {id : JobId} {set : JobEntry → JobEntry}
    (hid : ∀ e, (set e).job.id = e.job.id) (hheld : held.must (.job id))
    {f : Option JobEntry → Tx α} {Q : α → Txn.Locks Key → Prop}
    (hf : ∀ row, SweepDates offlineAfterSeconds rank rng now Q held (f row)) :
    SweepDates offlineAfterSeconds rank rng now Q held (writeJob id set >>= f) := by
  refine .stmt (fun base v hv hbase => ⟨(hid v).trans hv, ?_⟩) fun row _ => hf row
  exact hbase.elim (fun hfree => absurd hheld hfree.2) fun h => h

theorem dated_reapJobs (es : List JobEntry) (hes : ∀ e ∈ es, held.must (.job e.job.id)) :
    SweepDates offlineAfterSeconds rank rng now (fun _ _ => True) held
      (ExecutionService.reapJobs rng now es) := by
  induction es with
  | nil => exact .pure trivial
  | cons e es ih =>
      have he := hes e List.mem_cons_self
      refine dated_sweepWrite (fun _ => rfl) he fun _ => ?_
      cases decideFailure (policyOf e.job) e.job.attemptCount (rng e.job.id) with
      | error err => exact .pure trivial
      | ok decision =>
          refine dated_sweepWrite (fun d => ?_) he fun _ => ih fun d hd =>
            hes d (List.mem_cons_of_mem _ hd)
          obtain ⟨retry, delay⟩ := decision
          cases retry <;> rfl

theorem dated_markStaleOffline (ids : List WorkerId) :
    SweepDates offlineAfterSeconds rank rng now (fun _ _ => True) held
      (ExecutionService.markStaleOffline offlineAfterSeconds now ids) := by
  induction ids generalizing held with
  | nil => exact .pure trivial
  | cons id ids ih => exact .stmt (fun _ _ _ _ _ => ⟨trivial, trivial⟩) fun _ _ => ih

theorem dated_reapOnce (t : TxId) : ((Call.reapOnce offlineAfterSeconds rank rng).body t).InDate
    (jobDates (.reapOnce offlineAfterSeconds rank rng)) HoldsOwnId := by
  refine .of_begin (fun now => .stmt (fun _ _ => trivial) fun gotLock _ => ?_) fun now r held => ?_
  · cases gotLock with
    | none => exact .stmt trivial fun _ _ => dated_leave _
    | some row =>
        refine .stmt trivial fun ids _ => (dated_lockExpired _ ids).bind fun expired held hheld => ?_
        refine (dated_reapJobs expired hheld.2).bind fun r held _ => ?_
        cases r with
        | error err => exact dated_leave _
        | ok _ =>
            refine .stmt trivial fun stale _ => (dated_markStaleOffline stale).bind fun _ held _ => ?_
            exact .stmt trivial fun _ _ => dated_leave _
  · cases r <;> exact .pure trivial

-- The rows of workers alone: those of jobs may be any.
abbrev Stales (offlineAfterSeconds : Int) (rank : JobId → Nat) (rng : JobId → Draw) (now : Time)
    {β : Type} (st : Txn.Stmt Key Row Time β) : Prop :=
  ∀ held, st.InDate (workerDates (.reapOnce offlineAfterSeconds rank rng)) (fun _ _ => True) now held

theorem stales_lockExpired (n : Nat) (ids : List JobId) :
    (lockRows (fun e => expiredWhere now e.job) n ids).All
      (Stales offlineAfterSeconds rank rng now) := by
  induction ids generalizing n with
  | nil => cases n <;> exact .pure _
  | cons id ids ih =>
      cases n with
      | zero => exact .pure _
      | succ n =>
          refine .bind (.stmt fun _ _ _ => trivial) fun row => ?_
          cases row with
          | none => exact ih (n + 1)
          | some e => exact .bind (ih n) fun es => .pure _

theorem stales_reapJobs (es : List JobEntry) :
    (ExecutionService.reapJobs rng now es).All (Stales offlineAfterSeconds rank rng now) := by
  induction es with
  | nil => exact .pure _
  | cons e es ih =>
      refine .bind (.stmt fun _ _ _ _ _ => ⟨trivial, trivial⟩) fun _ => ?_
      cases decideFailure (policyOf e.job) e.job.attemptCount (rng e.job.id) with
      | error err => exact .pure _
      | ok decision => exact .bind (.stmt fun _ _ _ _ _ => ⟨trivial, trivial⟩) fun _ => ih

theorem stales_markStaleOffline (ids : List WorkerId) :
    (ExecutionService.markStaleOffline offlineAfterSeconds now ids).All
      (Stales offlineAfterSeconds rank rng now) := by
  induction ids with
  | nil => exact .pure _
  | cons id ids ih =>
      refine .bind (.stmt fun held base row _ hbase hstale => ⟨trivial, ?_⟩) fun _ => ih
      rcases hbase with rfl | hheld
      · exact ⟨row, rfl, hstale⟩
      · exact hheld

theorem stales_reapOnce (t : TxId) : ((Call.reapOnce offlineAfterSeconds rank rng).body t).InDate
    (workerDates (.reapOnce offlineAfterSeconds rank rng)) fun _ _ => True := by
  have hleave {α : Type} (now : Time) (a : α) : (ExecutionService.exit >>= fun _ => pure a : Tx α).All
      (Stales offlineAfterSeconds rank rng now) := .bind (.stmt fun _ => trivial) fun _ => .pure a
  refine .of_begin (fun now => .of_all (.bind (.stmt fun _ _ _ => trivial) fun gotLock => ?_))
    fun now r held => ?_
  · cases gotLock with
    | none => exact .bind (.stmt fun _ => trivial) fun _ => hleave now _
    | some row =>
        refine .bind (.stmt fun _ => trivial) fun ids => .bind (stales_lockExpired _ ids)
          fun expired => .bind (stales_reapJobs expired) fun r => ?_
        cases r with
        | error err => exact hleave now _
        | ok _ =>
            refine .bind (.stmt fun _ => trivial) fun stale =>
              .bind (stales_markStaleOffline stale) fun _ => ?_
            exact .bind (.stmt fun _ => trivial) fun _ => hleave now _
  · cases r <;> exact .pure trivial

end Sweep

section Claim

variable {t : TxId} {a : ClaimArgs} {now : Time}

-- A claim starts any row it has locked, in whatever way.
abbrev ClaimDates (a : ClaimArgs) (now : Time) {β : Type} (st : Txn.Stmt Key Row Time β) : Prop :=
  ∀ held, st.InDate (jobDates (.claimJobs a)) HoldsOwnId now held

theorem dated_lockRows (cond : JobEntry → Bool) (n : Nat) (ids : List JobId) :
    (lockRows cond n ids).All (ClaimDates a now) := by
  induction ids generalizing n with
  | nil => cases n <;> exact .pure _
  | cons id ids ih =>
      cases n with
      | zero => exact .pure _
      | succ n =>
          refine .bind (.stmt fun _ e _ => ⟨e, rfl, .inl rfl⟩) fun row => ?_
          cases row with
          | none => exact ih (n + 1)
          | some e => exact .bind (ih n) fun es => .pure _

theorem dated_updateCandidates (pass : Pass) (es : List JobEntry) :
    (updateCandidates t a now pass es).All (ClaimDates a now) := by
  induction es with
  | nil => exact .pure _
  | cons e es ih =>
      refine .bind (.stmt ?_) fun row => .bind ih fun rest => .pure _
      rintro held base v hv (⟨rfl, -⟩ | ⟨d, rfl, -⟩)
      · exact ⟨hv, v, rfl, .inr rfl⟩
      · exact ⟨hv, d, rfl, .inr rfl⟩

theorem dated_claimWhere (pass : Pass) (scan : Snapshot → List JobId × (JobEntry → Bool))
    (limit : Nat) : (claimWhere t a now pass scan limit).All (ClaimDates a now) :=
  .bind (.stmt fun _ => trivial) fun _ => .bind (dated_lockRows _ _ _) fun _ =>
    dated_updateCandidates pass _

theorem dated_lockQueues (queues : List String) (ids : List QueueId) :
    (lockQueues queues ids).All (ClaimDates a now) := by
  induction ids with
  | nil => exact .pure _
  | cons id ids ih =>
      exact .bind (.stmt fun _ _ _ => trivial) fun row => .bind ih fun rest => .pure _

theorem dated_claimFromQueues (rows : List (QueueId × Int)) (remaining : Nat) :
    (claimFromQueues t a now rows remaining).All (ClaimDates a now) := by
  induction rows generalizing remaining with
  | nil => exact .pure _
  | cons row rows ih =>
      obtain ⟨queueId, cap⟩ := row
      unfold claimFromQueues
      split
      · exact .pure _
      · refine .bind (.stmt fun _ => trivial) fun running => ?_
        dsimp only
        split
        · exact ih remaining
        · exact .bind (dated_claimWhere _ _ _) fun batch => .bind (ih _) fun rest => .pure _

theorem dated_startAttempts (workerId : WorkerId) (jobs : List Job) :
    (ExecutionService.startAttempts workerId now jobs).All (ClaimDates a now) := by
  induction jobs with
  | nil => exact .pure _
  | cons job jobs ih =>
      refine .bind (.stmt ?_) fun _ => ih
      rintro held base v hv (⟨rfl, -⟩ | hdated)
      · exact ⟨hv, v, rfl, .inl rfl⟩
      · exact ⟨hv, hdated⟩

theorem dated_claimBatch : (claimBatch t a now).All (ClaimDates a now) := by
  refine .bind (dated_claimWhere _ _ _) fun claimed => ?_
  dsimp only
  split
  · refine .bind (.bind (.stmt fun _ => trivial) fun ids => .bind (dated_lockQueues _ _) fun rows => ?_)
      fun more => .pure _
    exact dated_claimFromQueues _ _
  · exact .pure _

theorem dated_claimJobs (t : TxId) :
    ((Call.claimJobs a).body t).InDate (jobDates (.claimJobs a)) HoldsOwnId := by
  refine .of_begin (fun now => .of_all (.bind dated_claimBatch fun jobs => ?_))
    fun now r held => .pure trivial
  refine .bind (dated_startAttempts _ _) fun _ => .bind (.stmt fun _ => trivial) fun _ => ?_
  exact .bind (.stmt fun _ => trivial) fun _ => .pure _

end Claim

theorem dated_body (t : TxId) (c : Call) (hc : isDated c) :
    (c.body t).InDate (jobDates c) HoldsOwnId := by
  cases c with
  | reapOnce offlineAfterSeconds rank rng => exact dated_reapOnce t
  | claimJobs a => exact dated_claimJobs t
  | _ => exact hc.elim

theorem stales_body (t : TxId) (c : Call) (hc : isSweep c) :
    (c.body t).InDate (workerDates c) fun _ _ => True := by
  cases c with
  | reapOnce offlineAfterSeconds rank rng => exact stales_reapOnce t
  | _ => exact hc.elim

theorem inDate_of_reachable {m : Db} {s : State} (hm : Initial m) (h : system.Reachable m s) :
    Txn.InDate jobDates HoldsOwnId isDated s := by
  refine .of_reaches hm.wf hm.unlocked dated_body (fun s k v hs hv => ?_) h
  cases k with
  | job id => exact (Run.inv hm (run_of_reachable hs)).inv.id id v hv
  | _ => trivial

-- A state of the system with the now() of the last heartbeat that each worker has committed.
structure Pulsed where
  timed : Timed
  beat : WorkerId → Time

namespace Pulsed

abbrev mem (s : Pulsed) : Db := s.timed.pool.mem

def init (m : Db) : Pulsed := ⟨.init m, fun _ => m.clock⟩

def beatAfter (s : Pulsed) : Event → WorkerId → Time
  | .run t, w =>
      match s.timed.pool.thread t with
      | some ⟨.heartbeat w' _ _, some (.op .commit _)⟩ =>
          if w' = w then s.timed.began t else s.beat w
      | _ => s.beat w
  | _, w => s.beat w

def step (leaseSeconds : ℚ) (s : Pulsed) (ev : Event) : Option Pulsed :=
  (s.timed.step leaseSeconds ev).map fun timed => ⟨timed, s.beatAfter ev⟩

end Pulsed

section Beat

variable {w : WorkerId} {l : ℚ} {now : Time} {ids : List JobId}

-- A heartbeat that has the leases of these jobs to extend still.
def Extends (w : WorkerId) (l : ℚ) (now : Time) (ids : List JobId) (p : Tx Value) : Prop :=
  ∃ rest : Nat → Tx Value, p = ExecutionService.updateJobs (extendLeases w l now) ids >>= rest ∧
    ∀ n, ∃ next, rest n = .op .commit next ∧ (next ()).All Txn.Stmt.Reads

-- A heartbeat on its way to the jobs whose leases it extends.
inductive Scans (w : WorkerId) (l : ℚ) (now : Time) : Tx Value → Prop
  | worker (cond : Worker → Bool) (set : Worker → Worker) (next : Option Worker → Tx Value)
      (h : ∀ row, Scans w l now (next row)) : Scans w l now (.op (.update (Key.worker w) cond set) next)
  | scan (rank : JobId → Nat) (next : List JobId → Tx Value)
      (h : ∀ ids, Extends w l now ids (next ids)) :
      Scans w l now
        (.op (.select (ExecutionService.scanJobs (extendLeases w l now).guard rank)) next)

theorem extends_cons {id : JobId} {p : Tx Value} (h : Extends w l now (id :: ids) p) :
    ∃ next, p = .op (.recheck (Key.job id) (fun e => (extendLeases w l now).guard e.job)
      (JobEntry.assign (extendLeases w l now).set)) next ∧ ∀ row, Extends w l now ids (next row) := by
  obtain ⟨rest, rfl, hrest⟩ := h
  refine ⟨_, rfl, fun row => ⟨fun n => rest (n + if row.isSome then 1 else 0), ?_, fun n => hrest _⟩⟩
  exact Txn.Prog.bind_assoc (ExecutionService.updateJobs (extendLeases w l now) ids) _ _

theorem extends_nil {p : Tx Value} (h : Extends w l now [] p) :
    ∃ next, p = .op .commit next ∧ (next ()).All Txn.Stmt.Reads := by
  obtain ⟨rest, rfl, hrest⟩ := h
  exact hrest 0

theorem scans_heartbeat (t : TxId) (rank : JobId → Nat) : ∃ next : Time → Tx Value,
    (Call.heartbeat w l rank).body t = .op .begin next ∧ ∀ now, Scans w l now (next now) := by
  refine ⟨_, rfl, fun now => .worker _ _ _ fun _ => .worker _ _ _ fun _ => .scan rank _ fun ids => ?_⟩
  refine ⟨_, Txn.Prog.bind_assoc (ExecutionService.updateJobs (extendLeases w l now) ids) _ _, ?_⟩
  exact fun n => ⟨_, rfl, .rollback, fun _ => trivial⟩

end Beat

end Chronos
