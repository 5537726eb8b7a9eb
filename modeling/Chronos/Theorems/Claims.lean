import Chronos.Refinement.Checks

namespace Chronos

open Txn (TxId Reaches)

variable {cond : Conditions} {m : Db} {s s' : State}

section Cap

def capCondition (q : QueueId) (k : Int) : Conditions :=
  { Conditions.none with cap := fun q' => if q' = q then some k else none }

theorem run_of_capIs {q : QueueId} {k : Int}
    (h : Reaches system.step (fun _ _ s' => CapIs q k s'.mem) (Txn.Pool.init m) s) :
    Run (capCondition q k) m s := by
  refine h.mono fun s ev s' hcap => ?_
  have hnone := permitted_none s ev s'
  refine ⟨fun q' k' _ hk row hrow => ?_, hnone.start, fun t c _ st next hev ht =>
    ⟨(hnone.run t c st next hev ht).finalize, (hnone.run t c st next hev ht).summary,
      (hnone.run t c st next hev ht).gated, (hnone.run t c st next hev ht).exclusive,
      fun _ _ _ _ hfree => absurd trivial hfree,
      fun _ _ _ hfree => absurd trivial hfree⟩⟩
  simp only [capCondition, Option.ite_none_right_eq_some] at hk
  obtain ⟨rfl, hk⟩ := hk
  exact Option.some.inj hk ▸ hcap row hrow

-- Over every interleaving, a queue has no more jobs RUNNING, committed or flipped by a claim that
-- is still open, than its cap allows.
theorem running_le_cap (hm : Initial m) {q : QueueId} {k : Int}
    (h : Reaches system.step (fun _ _ s' => CapIs q k s'.mem) (Txn.Pool.init m) s) {row : Queue}
    (hrow : committedQueue s.mem q = some row) : (load s.mem q : Int) ≤ k := by
  have hinv := Run.inv hm (run_of_capIs h)
  have hk : (capCondition q k).cap q = some k := if_pos rfl
  have hfixed : CapIs q k s.mem := hinv.assume q k trivial hk
  have hload := (hinv.inv.caps q k ⟨hk, hfixed⟩).load
  have hcap : row.maxConcurrency = some k := hfixed row hrow
  have hchecks := hinv.inv.queues q row (.inl hrow)
  simp only [Queue.checks, hcap, Option.all_some, decide_eq_true_eq] at hchecks
  omega

-- Two jobs of a queue with room for one; the second claim starts while the first is open.
def cappedEvents : List Event :=
  whole 1 (.createQueue exampleUser none
    { Queue.fresh 8 0 "default" with maxConcurrency := some 1 }) 5 ++
  whole 2 (.enqueue exampleUser (exampleBody none []) ⟨7, 80, 9⟩) 7 ++
  whole 3 (.enqueue exampleUser (exampleBody none []) ⟨17, 80, 9⟩) 7 ++
  whole 4 (.claimJobs (exampleClaim 5)) 8 ++ whole 5 (.claimJobs (exampleClaim 6)) 6

def cappedChecks : Checks := { Checks.none with caps := [(8, 1)] }

theorem running_le_cap_open : load (cappedChecks.stateAfter cappedEvents).mem 8 = 1 ∧
    (load (cappedChecks.stateAfter cappedEvents).mem 8 : Int) ≤ 1 := by
  have hrow : committedQueue (cappedChecks.stateAfter cappedEvents).mem 8 =
      some { Queue.fresh 8 0 "default" with maxConcurrency := some 1 } := by decide +kernel
  refine ⟨by decide +kernel, running_le_cap exampleDb_initial ?_ hrow⟩
  refine (cappedChecks.reaches_stateAfter cappedEvents).mono fun s ev s' h row hrow => ?_
  rw [Checks.step, Bool.and_eq_true] at h
  exact Checks.capsFixed_sound h.1 (.head _) hrow

end Cap

section HandOut

-- What a claim by `t` publishes: the row RUNNING for its worker, one attempt more, and one new
-- attempt row, which is RUNNING.
structure HandsOut (t : TxId) (args : JobRepository.ClaimArgs) (e e' : JobEntry) : Prop where
  pending : e.job.status = .pending
  running : e'.job.status = .running
  lockedBy : e'.job.lockedBy = some args.workerId
  attempts : ∃ a, e'.attempts = e.attempts ++ [a] ∧ a.workerId = some args.workerId ∧
    a.attemptNumber = e'.job.attemptCount ∧ a.status = .running
  log : ∃ pass, e'.log = .claimed t args.workerId pass :: e.log
  fresh : e.Unrecorded t

-- The only way a job gets RUNNING, and the only way it gets attempt rows.
theorem handsOut_of_effect {c : Call} {t : TxId} {op : JobOp} {e e' : JobEntry}
    (h : Effect cond c t m op e e')
    (hchange : e'.attempts.length ≠ e.attempts.length ∨
      e.job.status ≠ .running ∧ e'.job.status = .running) :
    ∃ args, c = .claimJobs args ∧ HandsOut t args e e' := by
  obtain ⟨hperf, happ, hside⟩ := h
  cases happ with
  | claim tx workerId leaseSeconds now pass e hpending hready =>
      cases hperf with
      | claim a now pass =>
          exact ⟨a, rfl, hpending, rfl, rfl, ⟨_, rfl, rfl, rfl, rfl⟩, ⟨pass, rfl⟩, hside.1⟩
  | finish claim tx snapshot workerId o now e hrunning hlocked =>
      rcases hchange with hlen | ⟨hno, -⟩
      · exact absurd (List.length_map _) hlen
      · exact absurd hrunning hno
  | reclaim rng now decision e hrunning hdecision =>
      rcases hchange with hlen | ⟨hno, -⟩
      · exact absurd (List.length_map _) hlen
      · exact absurd hrunning hno
  | extend workerId leaseSeconds now e hlocked hrunning =>
      rcases hchange with hlen | ⟨hno, -⟩
      · exact absurd rfl hlen
      · exact absurd hrunning hno
  | cancel ownerId now e howner hpending =>
      rcases hchange with hlen | ⟨-, hrun⟩
      · exact absurd rfl hlen
      · cases hrun
  | requeue ownerId now e howner hended =>
      rcases hchange with hlen | ⟨-, hrun⟩
      · exact absurd rfl hlen
      · cases hrun
  | summarize text e =>
      rcases hchange with hlen | ⟨hno, hrun⟩
      · exact absurd rfl hlen
      · exact absurd hrun hno

-- The exits from RUNNING.
def JobEvent.isExit : JobEvent → Bool
  | .finished _ _ _ => true
  | .reclaimed _ => true
  | _ => false

theorem JobEvent.isExit_of_running {ev : JobEvent} (h : ev.happensIn .running = true) :
    ev.isExit = true ∧ ev.isClaim = false := by
  cases ev <;> simp [happensIn, isExit, isClaim] at h ⊢

-- In a history, newest event first: the event right after `ev` can happen to the row `ev` left.
theorem happensIn_after {log newer mid older : List JobEvent} {new ev : JobEvent}
    (hchain : log.IsChain fun new old => new.happensIn old.status = true)
    (hlog : log = newer ++ (new :: mid ++ ev :: older)) :
    ∃ next ∈ new :: mid, next.happensIn ev.status = true := by
  subst hlog
  have hrel := hchain.right_of_append.rel_getLast_head_of_append (List.cons_ne_nil new mid)
    (List.cons_ne_nil ev older)
  exact ⟨_, List.getLast_mem (List.cons_ne_nil new mid), hrel⟩

-- Between two claims of a job it has left RUNNING.
def Separated (log : List JobEvent) : Prop :=
  ∀ newer mid older new old, log = newer ++ (new :: mid ++ old :: older) → new.isClaim = true →
    old.isClaim = true → ∃ ev ∈ mid, ev.isExit = true

-- A cancelled job is not claimed before it is requeued.
def RequeuedFirst (log : List JobEvent) : Prop :=
  ∀ newer mid older new, log = newer ++ (new :: mid ++ .cancelled :: older) → new.isClaim = true →
    .requeued ∈ mid

theorem separated_of_chain {log : List JobEvent}
    (hchain : log.IsChain fun new old => new.happensIn old.status = true) : Separated log := by
  intro newer mid older new old hlog hnew hold
  obtain ⟨next, hmem, hnext⟩ := happensIn_after hchain hlog
  have hrunning : old.status = .running := by
    cases old <;> first | rfl | cases hold
  rw [hrunning] at hnext
  obtain ⟨hexit, hclaim⟩ := JobEvent.isExit_of_running hnext
  rcases List.mem_cons.mp hmem with rfl | hmid
  · rw [hnew] at hclaim
    cases hclaim
  · exact ⟨next, hmid, hexit⟩

theorem requeuedFirst_of_chain {log : List JobEvent}
    (hchain : log.IsChain fun new old => new.happensIn old.status = true) : RequeuedFirst log := by
  intro newer mid older new hlog hnew
  obtain ⟨next, hmem, hnext⟩ := happensIn_after hchain hlog
  have hrequeued : next = .requeued := by
    cases next <;> first | rfl | simp [JobEvent.happensIn, JobEvent.status] at hnext
  rcases List.mem_cons.mp hmem with rfl | hmid
  · rw [hrequeued] at hnew
    cases hnew
  · exact hrequeued ▸ hmid

-- A step records in the history of a job what it does to the status.
def Recorded (e e' : JobEntry) : Prop :=
  (e'.log = e.log ∧ e'.job.status = e.job.status) ∨
    ∃ ev, e'.log = ev :: e.log ∧ e'.job.status = ev.status ∧ ev.happensIn e.job.status = true

theorem recorded_of_applies {op : JobOp} {e e' : JobEntry} (h : op.Applies e e') :
    Recorded e e' := by
  have hlog := h.log
  cases hev : op.event e with
  | none =>
      rw [hev, Option.toList_none, List.nil_append] at hlog
      exact .inl ⟨hlog, (h.quiet hev).1⟩
  | some ev =>
      rw [hev, Option.toList_some, List.singleton_append] at hlog
      exact .inr ⟨ev, hlog, h.status_of_event hev, h.happensIn hev⟩

-- Over every interleaving: a job gets RUNNING, or gets an attempt row, only from PENDING and by
-- the commit of one claim, together with that one row; two claims of a job are separated by an
-- exit from RUNNING, and a cancelled job is requeued before it is claimed.
theorem exclusive_handOut (hm : Initial m) (h : system.Reachable m s) :
    (∀ ev s', system.step s ev = some s' → ∀ id e e', committedJob s.mem id = some e →
      committedJob s'.mem id = some e' → Recorded e e' ∧
        (e'.attempts.length ≠ e.attempts.length ∨
          e.job.status ≠ .running ∧ e'.job.status = .running →
            ∃ t args p, ev = .run t ∧ s.thread t = some ⟨.claimJobs args, some p⟩ ∧
              HandsOut t args e e')) ∧
    (∀ ev s', system.step s ev = some s' → ∀ id e', committedJob s.mem id = none →
      committedJob s'.mem id = some e' → e'.job.status = .pending ∧ e'.attempts = []) ∧
    ∀ id e, committedJob s.mem id = some e → Separated e.log ∧ RequeuedFirst e.log ∧
      (e.log.filterMap JobEvent.tx).Nodup := by
  have hrun := run_of_reachable h
  have hinv := (Run.inv hm hrun).inv
  refine ⟨fun ev s' hstep id e e' he he' => ?_, fun ev s' hstep id e' hnone he' => ?_,
    fun id e he => ?_⟩
  · cases Run.published hm hrun hstep (permitted_none s ev s') id with
    | same heq =>
        obtain rfl : e = e' := Option.some.inj (he.symm.trans (heq.symm.trans he'))
        exact ⟨.inl ⟨rfl, rfl⟩, fun hchange => (hchange.elim (absurd rfl) fun hc => absurd hc.2 hc.1)⟩
    | changed t c p op d d' hev ht hd hd' heff =>
        obtain rfl : d = e := Option.some.inj (hd.symm.trans he)
        obtain rfl : d' = e' := Option.some.inj (hd'.symm.trans he')
        refine ⟨recorded_of_applies heff.applies, fun hchange => ?_⟩
        obtain ⟨args, rfl, hhands⟩ := handsOut_of_effect heff hchange
        exact ⟨t, args, p, hev, ht, hhands⟩
    | created t c p d hev ht hnone hd hnew =>
        rw [he] at hnone
        cases hnone
  · cases Run.published hm hrun hstep (permitted_none s ev s') id with
    | same heq =>
        rw [heq, hnone] at he'
        cases he'
    | changed t c p op d d' hev ht hd hd' heff =>
        rw [hnone] at hd
        cases hd
    | created t c p d hev ht _ hd hnew =>
        obtain rfl : d = e' := Option.some.inj (hd.symm.trans he')
        exact ⟨hnew.pending, hnew.attempts⟩
  · have hchain := (hinv.ok id e he).coherent.chain
    exact ⟨separated_of_chain hchain, requeuedFirst_of_chain hchain, hinv.txs id e he⟩

theorem exclusive_handOut_claimed :
    (committedJob (stateAfter claimedEvents).mem 7).map JobEntry.log =
      some [.claimed 2 5 .uncapped, .created 1] ∧
    ∀ id e, committedJob (stateAfter claimedEvents).mem id = some e → Separated e.log ∧
      RequeuedFirst e.log ∧ (e.log.filterMap JobEvent.tx).Nodup :=
  ⟨by decide +kernel, (exclusive_handOut exampleDb_initial (reachable_stateAfter claimedEvents)).2.2⟩

end HandOut

end Chronos
