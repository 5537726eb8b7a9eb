import Chronos.Worker.Locks
import Chronos.Refinement.Checks

namespace Chronos

open Txn (TxId Reaches Rules)

-- What a worker does in the course of its life, apart from its jobs.
def isRegister (w : WorkerId) : Call → Bool
  | .registerWorker w' _ _ => w' = w
  | _ => false

def isHeartbeat (w : WorkerId) : Call → Bool
  | .heartbeat w' _ _ => w' = w
  | _ => false

def isDrain (w : WorkerId) : Call → Bool
  | .setWorkerStatus w' .draining _ => w' = w
  | _ => false

def isStop (w : WorkerId) : Call → Bool
  | .setWorkerStatus w' .offline _ => w' = w
  | _ => false

section Protocol

variable (s : State) (kind : Call → Bool)

def made : Bool :=
  s.mem.opened.any fun t => (s.thread t).any fun th => kind th.call

def hasReturned : Bool :=
  s.mem.opened.any fun t =>
    match s.thread t with
    | some ⟨c, some (.pure _)⟩ => kind c
    | _ => false

def underWay : Bool :=
  s.mem.opened.any fun t =>
    match s.thread t with
    | some ⟨c, some (.op _ _)⟩ => kind c
    | _ => false

end Protocol

-- A worker registers under a new id and heartbeats from then on. Its shutdown sets DRAINING, then
-- ends the heartbeat loop, then sets OFFLINE. Sweeps are hosted by any worker, at any time.
def lifecycleMay (s : State) : Call → Bool
  | .registerWorker w _ _ => !made s (isRegister w)
  | .heartbeat w _ _ => hasReturned s (isRegister w) && !made s (isStop w)
  | .setWorkerStatus w .draining false => hasReturned s (isRegister w) && !made s (isDrain w)
  | .setWorkerStatus w .offline true =>
      hasReturned s (isDrain w) && !underWay s (isHeartbeat w) && !made s (isStop w)
  | .reapOnce _ _ _ => true
  | _ => false

def fleet : Txn.System Key Row Time Call Value := ⟨lifecycleMay, Call.body⟩

def committedWorker (m : Db) (w : WorkerId) : Option Worker := (m.cell (.worker w)).committed

-- The DRAINING of the worker is committed (or the call that was to set it is cut off).
def drained (s : State) (w : WorkerId) : Bool :=
  s.mem.opened.any fun t => (s.thread t).any fun th => isDrain w th.call && th.rest.all Txn.Prog.leaving

def isOffline (s : State) (w : WorkerId) : Bool :=
  (committedWorker s.mem w).any fun row => row.status = .offline

-- At a COMMIT: no heartbeat of a worker that has been set DRAINING finds its row OFFLINE, and none
-- is set DRAINING that a sweep has set OFFLINE.
def keepsWorkers (s : State) : Event → Bool
  | .run t =>
      match s.thread t with
      | some ⟨.heartbeat w _ _, some (.op .commit _)⟩ => !(isOffline s w && drained s w)
      | some ⟨.setWorkerStatus w .draining _, some (.op .commit _)⟩ => !isOffline s w
      | _ => true
  | _ => true

def StoppedWhenOffline (m : Db) : Prop :=
  ∀ w row, committedWorker m w = some row → (row.stoppedAt.isSome = true ↔ row.status = .offline)

-- What the calls do to the rows of workers.
def workerRel : Call → WorkerId → Option Worker → Worker → Prop
  | .registerWorker w _ _, id, base, row =>
      w = id ∧ base = none ∧ row.status = .online ∧ row.stoppedAt = none
  | .heartbeat w _ _, id, base, row => w = id ∧ ∃ old, base = some old ∧
      (row.status = old.status ∧ row.stoppedAt = old.stoppedAt ∨
        old.status = .offline ∧ row.status = .online ∧ row.stoppedAt = none)
  | .setWorkerStatus w status stopped, id, base, row => w = id ∧ ∃ old, base = some old ∧
      row.status = status ∧ row.stoppedAt.isSome = (stopped || old.stoppedAt.isSome)
  | .reapOnce _ _ _, _, base, row => ∃ old, base = some old ∧ old.status ≠ .offline ∧
      row.status = .offline ∧ row.stoppedAt.isSome = true
  | _, _, _, _ => False

-- A sweep also locks rows that are no longer stale, and leaves them as they are.
def fleetRules : Rules Key Row Call where
  ok _ _ := True
  rel _ c
    | .worker id, base, row => base = some row ∨ workerRel c id base row
    | _, _, _ => True
  waits _ _ _ _ := True
  present _ _ := False

section Rules

variable {t : TxId}

theorem within_fleet_register (w : WorkerId) (name : String) (concurrency : Int) :
    (Call.body t (.registerWorker w name concurrency)).Within fleetRules t
      (.registerWorker w name concurrency) (fun _ _ => True) .none :=
  .stmt trivial fun _ _ => .stmt ⟨trivial, .inr ⟨rfl, rfl, rfl, rfl⟩⟩ fun _ _ =>
    .stmt trivial fun _ _ => .stmt trivial fun _ _ => trivial

theorem within_fleet_heartbeat (w : WorkerId) (leaseSeconds : ℚ) (rank : JobId → Nat) :
    (Call.body t (.heartbeat w leaseSeconds rank)).Within fleetRules t
      (.heartbeat w leaseSeconds rank) (fun _ _ => True) .none := by
  refine (within_heartbeat (P := fun _ => True) (Q := fun _ => True) ?_ ?_ ?_ ?_ ?_ ?_).bind
    fun _ _ _ => trivial
  · refine fun now => ⟨trivial, fun base row hbase _ _ => ⟨trivial, .inr ⟨rfl, ?_⟩⟩⟩
    rcases hbase with rfl | rfl | ⟨-, old, rfl, hsame | hrevived⟩
    · exact ⟨row, rfl, .inl ⟨rfl, rfl⟩⟩
    · exact ⟨row, rfl, .inl ⟨rfl, rfl⟩⟩
    · exact ⟨old, rfl, .inl hsame⟩
    · exact ⟨old, rfl, .inr hrevived⟩
  · exact fun _ _ => trivial
  · refine fun held _ => ⟨trivial, fun base row hbase _ hoffline => ⟨trivial, .inr ⟨rfl, ?_⟩⟩⟩
    rw [decide_eq_true_eq] at hoffline
    rcases hbase with rfl | rfl | ⟨-, old, rfl, ⟨hstatus, -⟩ | ⟨-, honline, -⟩⟩
    · exact ⟨row, rfl, .inr ⟨hoffline, rfl, rfl⟩⟩
    · exact ⟨row, rfl, .inr ⟨hoffline, rfl, rfl⟩⟩
    · exact ⟨old, rfl, .inr ⟨hstatus ▸ hoffline, rfl, rfl⟩⟩
    · rw [hoffline] at honline
      cases honline
  · exact fun _ _ _ => trivial
  · exact fun _ _ _ _ => ⟨trivial, fun _ _ _ _ => ⟨trivial, fun _ => ⟨trivial, trivial⟩⟩⟩
  · exact fun _ _ _ _ => trivial

theorem within_fleet_setStatus (w : WorkerId) (status : WorkerStatus) (stopped : Bool) :
    (Call.body t (.setWorkerStatus w status stopped)).Within fleetRules t
      (.setWorkerStatus w status stopped) (fun _ _ => True) .none := by
  refine .stmt trivial fun now _ =>
    .stmt ⟨trivial, fun base row hbase _ _ => ⟨trivial, .inr ⟨rfl, ?_⟩⟩⟩
    fun _ _ => .stmt trivial fun _ _ => .stmt trivial fun _ _ => trivial
  rcases hbase with rfl | rfl | ⟨-, old, rfl, -, hstopped⟩
  · exact ⟨row, rfl, by cases stopped <;> simp⟩
  · exact ⟨row, rfl, by cases stopped <;> simp⟩
  · exact ⟨old, rfl, by cases stopped <;> simp [hstopped]⟩

theorem within_fleet_reapOnce (offlineAfterSeconds : Int) (rank : JobId → Nat)
    (rng : JobId → Draw) :
    (Call.body t (.reapOnce offlineAfterSeconds rank rng)).Within fleetRules t
      (.reapOnce offlineAfterSeconds rank rng) (fun _ _ => True) .none := by
  refine (within_reapOnce (P := fun _ => True) (fun _ _ => trivial) trivial
    (fun _ _ _ _ _ _ => trivial) (fun _ _ _ _ _ _ _ _ => ⟨trivial, trivial⟩) ?_
    (fun _ _ _ _ => trivial) fun _ _ _ _ => trivial).bind fun _ _ _ => trivial
  refine fun now id held _ => ⟨trivial, fun base row hbase _ =>
    ⟨hbase.elim .inl fun hrel => hrel, fun hstale => ⟨trivial, .inr ?_⟩⟩⟩
  simp only [ExecutionService.staleWhere, decide_eq_true_eq] at hstale
  rcases hbase with rfl | rfl | ⟨old, rfl, -, hoffline, -⟩
  · exact ⟨row, rfl, hstale.1, rfl, rfl⟩
  · exact ⟨row, rfl, hstale.1, rfl, rfl⟩
  · exact absurd hoffline hstale.1

theorem begins_fleet {s : State} {c : Call} (hmay : lifecycleMay s c = true) :
    Txn.Begins fleetRules fleet s t c where
  present _ hk := hk.elim
  body := by
    cases c with
    | registerWorker w name concurrency => exact within_fleet_register w name concurrency
    | heartbeat w leaseSeconds rank => exact within_fleet_heartbeat w leaseSeconds rank
    | setWorkerStatus w status stopped => exact within_fleet_setStatus w status stopped
    | reapOnce offlineAfterSeconds rank rng =>
        exact within_fleet_reapOnce offlineAfterSeconds rank rng
    | _ => simp [lifecycleMay] at hmay

end Rules

-- A store with no transaction under way, which has no workers yet.
structure NoWorkers (m : Db) : Prop where
  wf : m.WF
  unlocked : ∀ k, (m.cell k).pending = none
  worker : ∀ w, committedWorker m w = none

theorem ruled_of_fleet {m : Db} (hm : NoWorkers m) {s : State}
    {ok : State → Event → State → Prop} (h : Reaches fleet.step ok (Txn.Pool.init m) s) :
    Txn.Ruled fleetRules s :=
  .of_reaches (.init hm.wf (fun _ _ _ => trivial) hm.unlocked) (fun _ _ _ => begins_fleet) h

theorem leaves_of_fleet {m : Db} {s : State} {ok : State → Event → State → Prop}
    (h : Reaches fleet.step ok (Txn.Pool.init m) s) {t : TxId} {c : Call} {p : Tx Value}
    {w : WorkerId} (hdrain : isDrain w c = true) (ht : s.thread t = some ⟨c, some p⟩) :
    p.LeavesAfterCommit := by
  refine Txn.System.hereditary (P := fun c p => isDrain w c = true → p.LeavesAfterCommit) ?_ ?_ h
    ht hdrain
  · intro s t c _ hdrain
    cases c with
    | setWorkerStatus w' status stopped =>
        refine ⟨by simp [Txn.Stmt.commits, Txn.Stmt.releases], fun now => ?_⟩
        refine ⟨by simp [Txn.Stmt.commits, Txn.Stmt.releases], fun row => ?_⟩
        exact ⟨fun _ _ => rfl, fun _ => ⟨fun _ _ => rfl, fun _ => trivial⟩⟩
    | _ => simp [isDrain] at hdrain
  · exact fun c β st next r hp hdrain => (hp hdrain).2 r

-- The statuses a worker sets itself.
def setsOwnStatus : Call → Bool
  | .setWorkerStatus _ status stopped => status = .draining && !stopped || status = .offline && stopped
  | _ => true

theorem setsOwnStatus_of_fleet {m : Db} {s : State} {ok : State → Event → State → Prop}
    (h : Reaches fleet.step ok (Txn.Pool.init m) s) {t : TxId} {c : Call} {p : Tx Value}
    (ht : s.thread t = some ⟨c, some p⟩) : setsOwnStatus c = true := by
  refine Txn.System.hereditary (P := fun c _ => setsOwnStatus c = true) ?_ ?_ h ht
  · intro s t c hmay
    cases c with
    | setWorkerStatus w status stopped =>
        change lifecycleMay s (.setWorkerStatus w status stopped) = true at hmay
        cases status <;> cases stopped <;> simp [lifecycleMay, setsOwnStatus] at hmay ⊢
    | _ => rfl
  · exact fun c β st next r hp => hp

section Step

variable {m : Db} {s s' : State} {ev : Event} {w : WorkerId}

theorem drained_iff (hopened : ∀ t, s.thread t ≠ none → t ∈ s.mem.opened) :
    drained s w = true ↔ ∃ t c rest, s.thread t = some ⟨c, rest⟩ ∧ isDrain w c = true ∧
      rest.all Txn.Prog.leaving = true := by
  simp only [drained, List.any_eq_true, Option.any_eq_true, Bool.and_eq_true]
  constructor
  · rintro ⟨t, -, ⟨c, rest⟩, ht, hdrain, hleaving⟩
    exact ⟨t, c, rest, ht, hdrain, hleaving⟩
  · rintro ⟨t, c, rest, ht, hdrain, hleaving⟩
    exact ⟨t, hopened t (by simp [ht]), ⟨c, rest⟩, ht, hdrain, hleaving⟩

-- A call on its way out stays on it.
theorem drained_of_step {ok : State → Event → State → Prop} (hm : NoWorkers m)
    (h : Reaches fleet.step ok (Txn.Pool.init m) s) (hstep : fleet.step s ev = some s')
    (hdrained : drained s w = true) : drained s' w = true := by
  have hruled := ruled_of_fleet hm h
  have hruled' := hruled.step (fun _ _ _ => begins_fleet) hstep
  obtain ⟨t, c, rest, ht, hdrain, hleaving⟩ := (drained_iff hruled.opened).mp hdrained
  refine (drained_iff hruled'.opened).mpr ?_
  cases (Txn.System.steps_of_step hstep).thread t with
  | same heq => exact ⟨t, c, rest, heq.trans ht, hdrain, hleaving⟩
  | started c' hev hfresh hmay hthread =>
      exact absurd (hruled.opened t (by simp [ht])) hfresh
  | advanced c' st next r hbefore hthread =>
      rw [ht, Option.some.injEq, Txn.Thread.mk.injEq] at hbefore
      obtain ⟨rfl, rfl⟩ := hbefore
      have hleaves := leaves_of_fleet h hdrain ht
      exact ⟨t, c, _, hthread, hdrain, hleaves.1 (.inr (by simpa [Txn.Prog.leaving] using hleaving)) r⟩
  | cutOff c' st next hev hbefore hthread =>
      rw [ht, Option.some.injEq, Txn.Thread.mk.injEq] at hbefore
      obtain ⟨rfl, -⟩ := hbefore
      exact ⟨t, c, none, hthread, hdrain, rfl⟩

-- A row of a worker is what it was, or the commit of a call has changed it as the rules say.
theorem worker_of_step (hruled : Txn.Ruled fleetRules s) (hstep : fleet.step s ev = some s')
    {row : Worker} (hrow : committedWorker s'.mem w = some row) :
    committedWorker s.mem w = some row ∨ ∃ t c next, ev = .run t ∧
      s.thread t = some ⟨c, some (.op .commit next)⟩ ∧ s'.thread t = some ⟨c, some (next ())⟩ ∧
      workerRel c w (committedWorker s.mem w) row := by
  by_cases hsame : committedWorker s'.mem w = committedWorker s.mem w
  · exact .inl (hsame ▸ hrow)
  · right
    obtain ⟨t, c, next, v, rfl, ht, -, -, hv, -, hkept | hrel⟩ := hruled.publication hstep hsame
    · exact absurd (hv.trans hkept.symm) hsame
    obtain rfl : v = row := Option.some.inj (hv.symm.trans hrow)
    refine ⟨t, c, next, rfl, ht, ?_, hrel⟩
    cases (Txn.System.steps_of_step hstep) with
    | run t c st next' r m' ht' he =>
        rw [ht] at ht'
        cases ht'
        exact Txn.Pool.set_thread_self s t c _ m'

theorem stopped_of_step {ok : State → Event → State → Prop} (hm : NoWorkers m)
    (h : Reaches fleet.step ok (Txn.Pool.init m) s) (hstep : fleet.step s ev = some s')
    (hkeeps : keepsWorkers s ev = true) (hold : StoppedWhenOffline s.mem) :
    StoppedWhenOffline s'.mem := by
  intro w row hrow
  rcases worker_of_step (ruled_of_fleet hm h) hstep hrow with hsame |
    ⟨t, c, next, rfl, ht, -, hrel⟩
  · exact hold w row hsame
  · cases c with
    | registerWorker w' name concurrency =>
        obtain ⟨-, -, hstatus, hstopped⟩ := hrel
        simp [hstatus, hstopped]
    | heartbeat w' leaseSeconds rank =>
        obtain ⟨-, old, hbase, ⟨hstatus, hstopped⟩ | ⟨-, hstatus, hstopped⟩⟩ := hrel
        · rw [hstatus, hstopped]
          exact hold w old hbase
        · simp [hstatus, hstopped]
    | setWorkerStatus w' status stopped =>
        obtain ⟨rfl, old, hbase, hstatus, hstopped⟩ := hrel
        have hown := setsOwnStatus_of_fleet h ht
        simp only [setsOwnStatus, Bool.or_eq_true, Bool.and_eq_true, Bool.not_eq_true',
          decide_eq_true_eq] at hown
        obtain ⟨rfl, rfl⟩ | ⟨rfl, rfl⟩ := hown
        · have honline : old.status ≠ .offline := by
            simpa [keepsWorkers, ht, isOffline, hbase] using hkeeps
          have hnone : old.stoppedAt.isSome = false :=
            Bool.eq_false_iff.mpr fun hsome => honline ((hold w' old hbase).mp hsome)
          simp [hstatus, hstopped, hnone]
        · simp [hstatus, hstopped]
    | reapOnce offlineAfterSeconds rank rng =>
        obtain ⟨old, -, -, hstatus, hstopped⟩ := hrel
        simp [hstatus, hstopped]
    | _ => exact hrel.elim

-- A worker that has been set DRAINING.
structure Drained (s : State) (w : WorkerId) : Prop where
  set : drained s w = true
  row : ∃ row, committedWorker s.mem w = some row ∧ row.status ≠ .online

theorem Drained.step {ok : State → Event → State → Prop} (hm : NoWorkers m)
    (h : Reaches fleet.step ok (Txn.Pool.init m) s) (hstep : fleet.step s ev = some s')
    (hkeeps : keepsWorkers s ev = true) (hold : Drained s w) : Drained s' w := by
  refine ⟨drained_of_step hm h hstep hold.set, ?_⟩
  have hruled := ruled_of_fleet hm h
  obtain ⟨row, hrow, hstatus⟩ := hold.row
  have hsome : (committedWorker s'.mem w).isSome = true :=
    Txn.System.stays hstep (by rw [← committedWorker, hrow]; rfl)
  obtain ⟨row', hrow'⟩ := Option.isSome_iff_exists.mp hsome
  refine ⟨row', hrow', ?_⟩
  rcases worker_of_step hruled hstep hrow' with hsame | ⟨t, c, next, rfl, ht, -, hrel⟩
  · obtain rfl : row = row' := Option.some.inj (hrow.symm.trans hsame)
    exact hstatus
  · rw [hrow] at hrel
    cases c with
    | registerWorker w' name concurrency => cases hrel.2.1
    | heartbeat w' leaseSeconds rank =>
        obtain ⟨rfl, old, hbase, ⟨hsame, -⟩ | ⟨hoffline, -, -⟩⟩ := hrel
        · cases hbase
          exact hsame ▸ hstatus
        · cases hbase
          simp [keepsWorkers, ht, isOffline, hrow, hoffline, hold.set] at hkeeps
    | setWorkerStatus w' status stopped =>
        obtain ⟨rfl, old, -, hset, -⟩ := hrel
        have hown := setsOwnStatus_of_fleet h ht
        simp only [setsOwnStatus, Bool.or_eq_true, Bool.and_eq_true, decide_eq_true_eq] at hown
        rw [hset]
        rcases hown with ⟨rfl, -⟩ | ⟨rfl, -⟩ <;> simp
    | reapOnce offlineAfterSeconds rank rng =>
        obtain ⟨old, -, -, hset, -⟩ := hrel
        simp [hset]
    | _ => exact hrel.elim

-- DRAINING is set by the worker's own call.
theorem drained_of_draining {ok : State → Event → State → Prop} (hm : NoWorkers m)
    (h : Reaches fleet.step ok (Txn.Pool.init m) s) {row : Worker}
    (hrow : committedWorker s.mem w = some row) (hdraining : row.status = .draining) :
    drained s w = true := by
  have hall := h.invariant (P := fun s => ∀ row, committedWorker s.mem w = some row →
    row.status = .draining → drained s w = true) ?_ ?_
  · exact hall row hrow hdraining
  · intro row hrow
    rw [Txn.Pool.init, hm.worker w] at hrow
    cases hrow
  · intro s ev s' hs hold hstep _ row' hrow' hdraining'
    have hruled := ruled_of_fleet hm hs
    rcases worker_of_step hruled hstep hrow' with hsame | ⟨t, c, next, rfl, ht, hthread, hrel⟩
    · exact drained_of_step hm hs hstep (hold row' hsame hdraining')
    · cases c with
      | registerWorker w' name concurrency =>
          rw [hrel.2.2.1] at hdraining'
          cases hdraining'
      | heartbeat w' leaseSeconds rank =>
          obtain ⟨-, old, hbase, ⟨hsame, -⟩ | ⟨-, honline, -⟩⟩ := hrel
          · exact drained_of_step hm hs hstep (hold old hbase (hsame ▸ hdraining'))
          · rw [honline] at hdraining'
            cases hdraining'
      | setWorkerStatus w' status stopped =>
          obtain ⟨rfl, old, -, hset, -⟩ := hrel
          obtain rfl : status = .draining := hset.symm.trans hdraining'
          have hdrain : isDrain w' (.setWorkerStatus w' .draining stopped) = true := by simp [isDrain]
          have hruled' := hruled.step (fun _ _ _ => begins_fleet) hstep
          refine (drained_iff hruled'.opened).mpr ⟨t, _, _, hthread, hdrain, ?_⟩
          exact (leaves_of_fleet hs hdrain ht).1 (.inl rfl) ()
      | reapOnce offlineAfterSeconds rank rng =>
          obtain ⟨old, -, -, hset, -⟩ := hrel
          rw [hset] at hdraining'
          cases hdraining'
      | _ => exact hrel.elim

end Step

-- The runs in which no sweep takes a worker for dead that goes on to drain.
def WorkerRun : State → State → Prop :=
  Reaches fleet.step fun s ev _ => keepsWorkers s ev = true

-- In such a run a worker has stopped exactly when it is OFFLINE, and is never ONLINE after it has
-- been DRAINING.
theorem worker_lifecycle {m : Db} (hm : NoWorkers m) {s : State}
    (h : WorkerRun (Txn.Pool.init m) s) :
    StoppedWhenOffline s.mem ∧ ∀ w row, committedWorker s.mem w = some row →
      row.status = .draining → ∀ s', WorkerRun s s' →
        ∃ row', committedWorker s'.mem w = some row' ∧ row'.status ≠ .online := by
  constructor
  · refine h.invariant (P := fun s => StoppedWhenOffline s.mem) ?_ ?_
    · intro w row hrow
      rw [Txn.Pool.init, hm.worker w] at hrow
      cases hrow
    · intro s ev s' hs hold hstep hkeeps
      exact stopped_of_step hm hs hstep hkeeps hold
  · intro w row hrow hdraining s' h'
    have hdrained : Drained s w :=
      ⟨drained_of_draining hm h hrow hdraining, row, hrow, by simp [hdraining]⟩
    refine (h'.invariant (P := fun s' => Drained s' w) hdrained ?_).row
    intro s₁ ev s₂ hs₁ hold hstep hkeeps
    exact hold.step hm (h.trans hs₁) hstep hkeeps

section Example

theorem exampleDb_noWorkers : NoWorkers exampleDb where
  wf := exampleDb_initial.wf
  unlocked := exampleDb_initial.unlocked
  worker _ := rfl

def fleetAfter (check : State → Event → Bool) (s : State) (events : List Event) : State :=
  (Txn.runAll fleet.step (fun s ev _ => check s ev) s events).getD s

theorem reaches_fleetAfter (check : State → Event → Bool) (s : State) (events : List Event) :
    Reaches fleet.step (fun s ev _ => check s ev = true) s (fleetAfter check s events) :=
  Reaches.getD_runAll (fun s ev _ => check s ev) events

def registerEvents : List Event := whole 1 (.registerWorker 5 "worker" 4) 4

-- No heartbeat gets through for 100 seconds, and a sweep notices.
def falseDeathEvents : List Event := .tick 100 :: whole 3 (.reapOnce 60 id fun _ => Draw.zero) 7

def drainingEvents : List Event := whole 2 (.setWorkerStatus 5 .draining false) 4

def beatEvents (t : TxId) : List Event := whole t (.heartbeat 5 30 id) 6

def workerShows (status : WorkerStatus) (stopped : Bool) (s : State) : Bool :=
  (committedWorker s.mem 5).any fun row => row.status = status ∧ row.stoppedAt.isSome = stopped

def unchecked (_ : State) (_ : Event) : Bool := true

def fleetInit : State := Txn.Pool.init exampleDb

-- A draining worker that a sweep takes for dead comes back ONLINE; one that a sweep has taken for
-- dead drains as if it had stopped.
theorem worker_lifecycle_breaks :
    (¬ ∀ m s, NoWorkers m → fleet.Reachable m s → ∀ w row, committedWorker s.mem w = some row →
      row.status = .draining → ∀ s', Reaches fleet.step (fun _ _ _ => True) s s' →
        ∃ row', committedWorker s'.mem w = some row' ∧ row'.status ≠ .online) ∧
    ¬ ∀ m s, NoWorkers m → fleet.Reachable m s → StoppedWhenOffline s.mem := by
  constructor
  · intro h
    have hdraining : workerShows .draining false
        (fleetAfter unchecked fleetInit (registerEvents ++ drainingEvents)) = true := by
      decide +kernel
    have honline : workerShows .online false
        (fleetAfter unchecked (fleetAfter unchecked fleetInit (registerEvents ++ drainingEvents))
          (falseDeathEvents ++ beatEvents 4)) = true := by
      decide +kernel
    obtain ⟨row, hrow, hstatus⟩ := (Option.any_eq_true _ _).mp hdraining
    obtain ⟨row₂, hrow₂, hstatus₂⟩ := (Option.any_eq_true _ _).mp honline
    obtain ⟨row', hrow', hne⟩ := h exampleDb _ exampleDb_noWorkers
      ((reaches_fleetAfter unchecked _ _).mono fun _ _ _ _ => trivial) 5 row hrow
      (of_decide_eq_true hstatus).1 _ ((reaches_fleetAfter unchecked _ _).mono fun _ _ _ _ => trivial)
    obtain rfl : row₂ = row' := Option.some.inj (hrow₂.symm.trans hrow')
    exact hne (of_decide_eq_true hstatus₂).1
  · intro h
    have hstopped : workerShows .draining true (fleetAfter unchecked fleetInit
        (registerEvents ++ falseDeathEvents ++ drainingEvents)) = true := by
      decide +kernel
    obtain ⟨row, hrow, hboth⟩ := (Option.any_eq_true _ _).mp hstopped
    obtain ⟨hstatus, hsome⟩ := of_decide_eq_true hboth
    have hoffline := (h exampleDb _ exampleDb_noWorkers
      ((reaches_fleetAfter unchecked _ _).mono fun _ _ _ _ => trivial) 5 row hrow).mp hsome
    rw [hstatus] at hoffline
    cases hoffline

-- A worker is taken for dead, resurrected by its heartbeat, and drains.
def drainedState : State :=
  fleetAfter keepsWorkers fleetInit
    (registerEvents ++ falseDeathEvents ++ beatEvents 4 ++ drainingEvents)

def stoppedState : State :=
  fleetAfter keepsWorkers drainedState
    (beatEvents 5 ++ whole 6 (.setWorkerStatus 5 .offline true) 4)

theorem worker_lifecycle_drained :
    (workerShows .draining false drainedState && workerShows .offline true stoppedState) = true ∧
    StoppedWhenOffline drainedState.mem ∧ ∃ row', committedWorker stoppedState.mem 5 = some row' ∧
      row'.status ≠ .online := by
  have hshows : (workerShows .draining false drainedState &&
      workerShows .offline true stoppedState) = true := by decide +kernel
  obtain ⟨row, hrow, hstatus⟩ := (Option.any_eq_true _ _).mp (Bool.and_eq_true_iff.mp hshows).1
  obtain ⟨hstopped, hnever⟩ := worker_lifecycle exampleDb_noWorkers
    (reaches_fleetAfter keepsWorkers fleetInit
      (registerEvents ++ falseDeathEvents ++ beatEvents 4 ++ drainingEvents))
  exact ⟨hshows, hstopped, hnever 5 row hrow (of_decide_eq_true hstatus).1 _
    (reaches_fleetAfter keepsWorkers _ _)⟩

end Example

end Chronos
