import Chronos.Worker.Punctual

namespace Chronos

open Txn (TxId Reaches)

variable {m : Db} {s s' : State} {ev : Event} {w : WorkerId} {offline : Int}

-- The last heartbeat of the worker is no older than any sweep allows, as long as it is not OFFLINE.
structure InTouch (w : WorkerId) (offline : Int) (s : State) : Prop where
  sweeps : ∀ t offlineAfterSeconds rank rng rest,
    s.thread t = some ⟨.reapOnce offlineAfterSeconds rank rng, rest⟩ → offline ≤ offlineAfterSeconds
  beats : ∀ row, committedWorker s.mem w = some row → row.status ≠ .offline →
    s.mem.clock ≤ row.lastHeartbeatAt + offline

-- It has stopped, if it is OFFLINE.
def OfflineIfStopped (w : WorkerId) (s : State) : Prop :=
  ∀ row, committedWorker s.mem w = some row → row.status = .offline → made s (isStop w) = true

theorem made_iff (hopened : ∀ t, s.thread t ≠ none → t ∈ s.mem.opened) {kind : Call → Bool} :
    made s kind = true ↔ ∃ t c rest, s.thread t = some ⟨c, rest⟩ ∧ kind c = true := by
  simp only [made, List.any_eq_true, Option.any_eq_true]
  constructor
  · rintro ⟨t, -, ⟨c, rest⟩, ht, hkind⟩
    exact ⟨t, c, rest, ht, hkind⟩
  · rintro ⟨t, c, rest, ht, hkind⟩
    exact ⟨t, hopened t (by simp [ht]), ⟨c, rest⟩, ht, hkind⟩

theorem made_of_step (hruled : Txn.Ruled fleetRules s) (hstep : fleet.step s ev = some s')
    {kind : Call → Bool} (h : made s kind = true) : made s' kind = true := by
  have hruled' := hruled.step (fun _ _ _ => begins_fleet) hstep
  obtain ⟨t, c, rest, ht, hkind⟩ := (made_iff hruled.opened).mp h
  obtain ⟨rest', ht'⟩ := (Txn.System.steps_of_step hstep).call hruled.opened ht
  exact (made_iff hruled'.opened).mpr ⟨t, c, rest', ht', hkind⟩

theorem offlineIfStopped_of_step {ok : State → Event → State → Prop} (hm : NoWorkers m)
    (h : Reaches fleet.step ok (Txn.Pool.init m) s) (hstep : fleet.step s ev = some s')
    (htouch : InTouch w offline s) (hold : OfflineIfStopped w s) : OfflineIfStopped w s' := by
  intro row hrow hoffline
  have hruled := ruled_of_fleet hm h
  rcases worker_of_step hruled hstep hrow with hsame | ⟨t, c, next, rfl, ht, hthread, hrel⟩
  · exact made_of_step hruled hstep (hold row hsame hoffline)
  · cases c with
    | registerWorker w' name concurrency =>
        rw [hrel.2.2.1] at hoffline
        cases hoffline
    | heartbeat w' leaseSeconds rank =>
        obtain ⟨rfl, old, hbase, ⟨hsame, -⟩ | ⟨-, honline, -⟩⟩ := hrel
        · exact made_of_step hruled hstep (hold old hbase (hsame.symm.trans hoffline))
        · rw [honline] at hoffline
          cases hoffline
    | setWorkerStatus w' status stopped =>
        obtain ⟨rfl, old, -, hset, -⟩ := hrel
        obtain rfl : status = .offline := hset.symm.trans hoffline
        have hruled' := hruled.step (fun _ _ _ => begins_fleet) hstep
        exact (made_iff hruled'.opened).mpr ⟨t, _, _, hthread, by simp [isStop]⟩
    | reapOnce offlineAfterSeconds rank rng =>
        have hsweep : isSweep (.reapOnce offlineAfterSeconds rank rng) := trivial
        have hdates : Txn.InDate workerDates (fun _ _ => True) isSweep s :=
          .of_reaches hm.wf hm.unlocked stales_body (fun _ _ _ _ _ => trivial) h
        obtain ⟨now, hnow, hheld⟩ := hdates.commits hsweep ht
        obtain ⟨old, hbase, hnot, -, -⟩ := hrel
        have hchanged : (s'.mem.cell (.worker w)).committed ≠ (s.mem.cell (.worker w)).committed := by
          intro hsame
          obtain rfl : row = old := Option.some.inj (hrow.symm.trans (hsame.trans hbase))
          exact hnot hoffline
        obtain ⟨t', c', next', v, hev, ht', -, hpending, hv⟩ := Txn.System.publication hstep hchanged
        obtain rfl := Txn.Event.run.inj hev
        rcases hheld (.worker w) v hpending with hkept | ⟨base, hbase', hstale⟩
        · exact absurd (hv.trans hkept.symm) hchanged
        obtain rfl : old = base := Option.some.inj (hbase.symm.trans hbase')
        simp only [ExecutionService.staleWhere, decide_eq_true_eq] at hstale
        have hbeat := htouch.beats old hbase hnot
        have hallowed := htouch.sweeps t offlineAfterSeconds rank rng _ ht
        have hallowed' : (offline : ℚ) ≤ offlineAfterSeconds := by exact_mod_cast hallowed
        linarith [hstale.2]
    | _ => exact hrel.elim

-- No sweep takes a worker for dead that is in touch: it is OFFLINE only once it has stopped.
theorem fleet_view_accurate (hm : NoWorkers m) (w : WorkerId) (offline : Int) (s : State)
    (h : Reaches fleet.step (fun _ _ s' => InTouch w offline s') (Txn.Pool.init m) s)
    (row : Worker) (hrow : committedWorker s.mem w = some row) (hoffline : row.status = .offline) :
    made s (isStop w) = true := by
  have hall : InTouch w offline s ∧ OfflineIfStopped w s := by
    refine h.invariant (P := fun s => InTouch w offline s ∧ OfflineIfStopped w s) ⟨⟨?_, ?_⟩, ?_⟩ ?_
    · intro t offlineAfterSeconds rank rng rest ht
      cases ht
    · intro row hrow
      rw [Txn.Pool.init, hm.worker w] at hrow
      cases hrow
    · intro row hrow
      rw [Txn.Pool.init, hm.worker w] at hrow
      cases hrow
    · intro s₁ ev s₂ hs₁ hold hstep htouch
      exact ⟨htouch, offlineIfStopped_of_step hm hs₁ hstep hold.1 hold.2⟩
  exact hall.2 row hrow hoffline

section Example

def sweepsAfter (offline : Int) : Call → Bool
  | .reapOnce offlineAfterSeconds _ _ => offline ≤ offlineAfterSeconds
  | _ => true

-- `InTouch`, for the calls that have begun.
def inTouch (w : WorkerId) (offline : Int) (_ : State) (_ : Event) (s' : State) : Bool :=
  (s'.mem.opened.all fun t => (s'.thread t).all fun th => sweepsAfter offline th.call) &&
    (committedWorker s'.mem w).all fun row =>
      row.status = .offline || s'.mem.clock ≤ row.lastHeartbeatAt + offline

theorem inTouch_sound (hopened : ∀ t, s'.thread t ≠ none → t ∈ s'.mem.opened)
    (h : inTouch w offline s ev s' = true) : InTouch w offline s' := by
  rw [inTouch, Bool.and_eq_true, List.all_eq_true] at h
  refine ⟨fun t offlineAfterSeconds rank rng rest ht => ?_, fun row hrow hnot => ?_⟩
  · have hall := h.1 t (hopened t (by simp [ht]))
    rw [ht, Option.all_some] at hall
    exact of_decide_eq_true hall
  · have hall := h.2
    rw [hrow, Option.all_some, Bool.or_eq_true, decide_eq_true_eq, decide_eq_true_eq] at hall
    exact hall.resolve_left hnot

-- Worker 5 registers, heartbeats at 50 and stops at 100; a sweep at 100 lets it be.
def seenEvents : List Event :=
  registerEvents ++ [.tick 50] ++ beatEvents 3 ++ [.tick 100] ++
    whole 4 (.reapOnce 60 id fun _ => Draw.zero) 6 ++ drainingEvents ++
    whole 5 (.setWorkerStatus 5 .offline true) 4

def seenState : State :=
  (Txn.runAll fleet.step (inTouch 5 60) fleetInit seenEvents).getD fleetInit

theorem fleet_view_accurate_seen :
    seenState.mem.clock = 100 ∧ ∃ row, committedWorker seenState.mem 5 = some row ∧
      row.status = .offline ∧ made seenState (isStop 5) = true := by
  have hreach : Reaches fleet.step (fun s ev s' => inTouch 5 60 s ev s' = true) fleetInit
      seenState := Reaches.getD_runAll (inTouch 5 60) seenEvents
  have htouch : Reaches fleet.step (fun _ _ s' => InTouch 5 60 s') fleetInit seenState := by
    refine hreach.imp fun s ev s' hs hstep hcheck => inTouch_sound ?_ hcheck
    exact (ruled_of_fleet exampleDb_noWorkers (.tail hs hstep hcheck)).opened
  have hshows : workerShows .offline true seenState = true := by decide +kernel
  obtain ⟨row, hrow, hboth⟩ := (Option.any_eq_true _ _).mp hshows
  have hoffline := (of_decide_eq_true hboth).1
  exact ⟨by decide +kernel, row, hrow, hoffline,
    fleet_view_accurate exampleDb_noWorkers 5 60 seenState htouch row hrow hoffline⟩

end Example

end Chronos
