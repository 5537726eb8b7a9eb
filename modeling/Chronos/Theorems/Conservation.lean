import Chronos.Refinement.Runs
import Chronos.Refinement.Serial
import Chronos.Refinement.Staging

namespace Chronos

open Txn (TxId Reaches Runs Settled)
open JobRepository ExecutionService

variable {m : Db} {s s' : State} {t : TxId} {a : ClaimArgs}

-- No transaction holds a row.
def AtRest (s : State) : Prop := ∀ k, (s.mem.cell k).pending = none

-- The one call that a run makes, and its statements.
def Makes (t : TxId) (c : Call) (_ : State) (ev : Event) (_ : State) : Prop :=
  ev = .start t c ∨ ev = .run t

theorem settled_of_rest (hm : Initial m) (h : system.Reachable m s) (hrest : AtRest s) :
    Settled (committedView s.mem) s.mem.clock s.mem :=
  settled_committedView (Txn.System.wf hm.wf h) hrest

theorem keyable_of_reachable (hm : Initial m) (h : system.Reachable m s) :
    Keyable (committedView s.mem) where
  nodup := (Txn.System.wf hm.wf h).nodup
  id := (Run.inv hm (run_of_reachable h)).inv.id

theorem listed_of_reachable (hm : Initial m) (h : system.Reachable m s) (k : Key)
    (hk : (committedView s.mem).row k ≠ none) : k ∈ (committedView s.mem).keys := by
  cases hrow : (committedView s.mem).row k with
  | none => exact absurd hrow hk
  | some row => exact (Txn.System.wf hm.wf h).mem_of_committed hrow

theorem committedView_of_settled {v : Snapshot} {now : Time} {m' : Db} (h : Settled v now m') :
    committedView m' = v := by
  obtain ⟨keys, row⟩ := v
  rw [committedView, Txn.View.mk.injEq]
  exact ⟨h.keys, funext h.committed⟩

-- A call made at rest, with nobody else at work.
theorem call_alone {v : Snapshot} {now : Time} {c : Call} {Q : Value → Db → Prop}
    (ht : t ∉ s.mem.opened) (hmay : mayCall s c = true) (h : Settled v now s.mem)
    (hruns : Runs t (Settled v now) (c.body t) Q) : ∃ r m', Q r m' ∧
      m'.opened = t :: s.mem.opened ∧
        Reaches system.step (Makes t c) s (s.set t c (some (.pure r)) m') :=
  @Reaches.call Key Row Time Value _ t v now Call _ _ system s c Q ht hmay h hruns

section Claim

-- What a claim makes of a job it hands out.
structure Dispatched (t : TxId) (a : ClaimArgs) (now : Time) (e e' : JobEntry) : Prop where
  job : e'.job = claimValues a.workerId a.leaseSeconds now e.job
  attempts : e'.attempts = e.attempts ++ [{ workerId := some a.workerId
                                            attemptNumber := e.job.attemptCount + 1
                                            status := .running
                                            error := none
                                            startedAt := now
                                            finishedAt := none }]
  deps : e'.dependsOn = e.dependsOn

-- The queue has a cap, and as many of its jobs run.
def Full (v : Snapshot) (queueId : QueueId) : Prop :=
  ∃ cap, (v.queue queueId).bind Queue.maxConcurrency = some cap ∧ cap ≤ countRunning queueId v

-- A claim that hands out less than its limit leaves no job of a queue that has room.
theorem full_of_left {now : Time} {v v' : Snapshot} (hv : Keyable v)
    (hlisted : ∀ k, v.row k ≠ none → k ∈ v.keys) (h : Assigns t a now v v') {id : JobId}
    {e : JobEntry} (he : v.job id = some e) (helig : Eligible a now v e)
    (hleft : ∀ p ∈ (passOrder a now v).take a.limit, p.1 ≠ id)
    (hless : ((passOrder a now v).take a.limit).length < a.limit) : Full v' e.job.queueId := by
  have hall : (passOrder a now v).take a.limit = passOrder a now v := by
    rw [List.length_take] at hless
    exact List.take_of_length_le (by omega)
  rw [hall] at hleft
  rcases mem_passOrder_or hlisted he helig with hmem | ⟨cap, hcap, hrow, hlength, -⟩
  · exact absurd rfl (hleft (id, e) hmem)
  · have hqueue : v'.queue e.job.queueId = v.queue e.job.queueId :=
      h.other (.queue e.job.queueId) fun p _ => by simp
    refine ⟨cap, by rw [hqueue, hcap], ?_⟩
    have hfilter : ((passOrder a now v).filter fun p => p.2.job.queueId = e.job.queueId) =
        share a now v (e.job.queueId, cap) := filter_passOrder hv hrow
    have hcount : countRunning e.job.queueId (afterClaim t a now v) = _ :=
      afterClaim_running hv e.job.queueId
    rw [hall, hfilter, hlength] at hcount
    rw [h.running, hcount]
    omega

theorem claim_alone (hm : Initial m) (h : system.Reachable m s) (hrest : AtRest s)
    (ht : t ∉ s.mem.opened) (a : ClaimArgs) :
    ∃ m' v', Assigns t a s.mem.clock (committedView s.mem) v' ∧ Settled v' s.mem.clock m' ∧
      m'.opened = t :: s.mem.opened ∧
        Reaches system.step (Makes t (.claimJobs a)) s (s.set t (.claimJobs a) (some (.pure (.jobs
          (((passOrder a s.mem.clock (committedView s.mem)).take a.limit).map
            (handedOut a s.mem.clock))))) m') := by
  have hbody : Runs t (Settled (committedView s.mem) s.mem.clock) ((Call.claimJobs a).body t)
      fun r m => r = .jobs (((passOrder a s.mem.clock (committedView s.mem)).take a.limit).map
        (handedOut a s.mem.clock)) ∧
          ∃ v', Assigns t a s.mem.clock (committedView s.mem) v' ∧ Settled v' s.mem.clock m :=
    .bind (runs_claimJobs (keyable_of_reachable hm h)) fun jobs =>
      .given fun hjobs => .pure fun m h => ⟨hjobs ▸ rfl, h⟩
  obtain ⟨r, m', ⟨rfl, v', hout, hdone⟩, hopened, hruns⟩ :=
    call_alone ht rfl (settled_of_rest hm h hrest) hbody
  exact ⟨m', v', hout, hdone, hopened, hruns⟩

-- claim_jobs hands out what it may up to its limit: an eligible job that it leaves is behind the
-- limit, or its queue is at its cap.
theorem claim_conserves_work (hm : Initial m) (h : system.Reachable m s) (hrest : AtRest s)
    (ht : t ∉ s.mem.opened) (a : ClaimArgs) :
    ∃ s' jobs, Reaches system.step (Makes t (.claimJobs a)) s s' ∧
      s'.thread t = some ⟨.claimJobs a, some (.pure (.jobs jobs))⟩ ∧ AtRest s' ∧
      (jobs.map Job.id).Nodup ∧ jobs.length ≤ a.limit ∧
      (∀ job ∈ jobs, ∃ e e', committedJob s.mem job.id = some e ∧
        Eligible a s.mem.clock (committedView s.mem) e ∧ committedJob s'.mem job.id = some e' ∧
        e'.job = job ∧ Dispatched t a s.mem.clock e e') ∧
      (∀ k, (∀ job ∈ jobs, k ≠ .job job.id) → s'.mem.cell k = s.mem.cell k) ∧
      ∀ id e, committedJob s.mem id = some e → Eligible a s.mem.clock (committedView s.mem) e →
        (∃ job ∈ jobs, job.id = id) ∨ jobs.length = a.limit ∨
          Full (committedView s'.mem) e.job.queueId := by
  let v := committedView s.mem
  have hv : Keyable v := keyable_of_reachable hm h
  obtain ⟨m', v', hout, hdone, -, hruns⟩ := claim_alone hm h hrest ht a
  have hid : ∀ p ∈ (passOrder a s.mem.clock v).take a.limit, p.2.job.id = p.1 :=
    fun p hp => hv.id p.1 p.2 (of_mem_passOrder (List.mem_of_mem_take hp)).2.1
  have hids : (((passOrder a s.mem.clock v).take a.limit).map (handedOut a s.mem.clock)).map
      Job.id = ((passOrder a s.mem.clock v).take a.limit).map Prod.fst := by
    rw [List.map_map]
    exact List.map_congr_left hid
  refine ⟨_, _, hruns, Txn.Pool.set_thread_self s t _ _ m', hdone.unlocked, ?_, ?_, ?_, ?_, ?_⟩
  · rw [hids]
    exact ((List.take_sublist _ _).map Prod.fst).nodup (nodup_passOrder hv)
  · rw [List.length_map]
    exact List.length_take_le _ _
  · intro job hjob
    obtain ⟨p, hp, rfl⟩ := List.mem_map.mp hjob
    obtain ⟨-, he, -, helig⟩ := of_mem_passOrder (List.mem_of_mem_take hp)
    obtain ⟨pass, he'⟩ := hout.taken p hp
    have hkey : (handedOut a s.mem.clock p).id = p.1 := hid p hp
    have hafter := (hdone.committed (.job p.1)).trans he'
    rw [← hkey] at he hafter
    exact ⟨p.2, _, he, helig, hafter, rfl, rfl, rfl, rfl⟩
  · intro k hk
    have hrow : (m'.cell k).committed = (s.mem.cell k).committed := by
      refine (hdone.committed k).trans (hout.other k fun p hp heq => ?_)
      exact hk _ (List.mem_map_of_mem hp) (heq.trans (congrArg Key.job (hid p hp).symm))
    exact congrArg₂ Txn.Cell.mk hrow ((hdone.unlocked k).trans (hrest k).symm)
  · intro id e he helig
    by_cases hin : ∃ p ∈ (passOrder a s.mem.clock v).take a.limit, p.1 = id
    · obtain ⟨p, hp, rfl⟩ := hin
      exact .inl ⟨_, List.mem_map_of_mem hp, hid p hp⟩
    · right
      rw [List.length_map]
      by_cases hless : ((passOrder a s.mem.clock v).take a.limit).length < a.limit
      · right
        rw [Txn.Pool.set_mem, committedView_of_settled hdone]
        exact full_of_left hv (listed_of_reachable hm h) hout he helig
          (fun p hp heq => hin ⟨p, hp, heq⟩) hless
      · exact .inl (Nat.le_antisymm (List.length_take_le _ _) (not_lt.mp hless))

-- Checked row by row.
theorem atRest_of_keys (hwf : s.mem.WF)
    (h : (s.mem.keys.all fun k => (s.mem.cell k).pending.isNone) = true) : AtRest s := by
  intro k
  by_cases hk : k ∈ s.mem.keys
  · exact Option.isNone_iff_eq_none.mp (List.all_eq_true.mp h k hk)
  · rw [hwf.absent k hk]
    rfl

-- Three jobs of a queue without a cap, and one of a queue with a cap of one.
def bulkEvents : List Event :=
  createdEvents ++ whole 2 (.registerWorker 5 "worker" 4) 4 ++
  whole 3 (.createQueue exampleUser none { Queue.fresh 20 0 "bulk" with maxConcurrency := some 1 }) 5 ++
  whole 4 (.enqueue exampleUser (exampleBody none []) ⟨10, 11, 12⟩) 7 ++
  whole 5 (.enqueue exampleUser (exampleBody none []) ⟨13, 14, 15⟩) 7 ++
  whole 6 (.enqueue exampleUser { exampleBody none [] with queue := "bulk" } ⟨21, 22, 23⟩) 7

def bulkClaim : ClaimArgs := ⟨5, ["default", "bulk"], 3, 30, none, ⟨60, 200⟩⟩

theorem le_length_of_subset {ids : List JobId} {jobs : List Job} (hids : ids.Nodup)
    (h : ∀ id ∈ ids, ∃ job ∈ jobs, job.id = id) : ids.length ≤ jobs.length := by
  have hsub : ids ⊆ jobs.map Job.id := by
    intro id hid
    obtain ⟨job, hjob, rfl⟩ := h id hid
    exact List.mem_map_of_mem hjob
  have hle := (List.subperm_of_subset hids hsub).length_le
  rwa [List.length_map] at hle

def bulkEligible (id : JobId) : Bool :=
  (committedJob (stateAfter bulkEvents).mem id).any fun e => e.job.queueId = 8 ∧
    uncappedWhere bulkClaim 0 (committedView (stateAfter bulkEvents).mem) e

-- The claim hands out three of the four jobs.
theorem claim_conserves_work_created : AtRest (stateAfter bulkEvents) ∧
    ∃ s' : State, ∃ jobs : List Job, Reaches system.step (Makes 7 (.claimJobs bulkClaim))
      (stateAfter bulkEvents) s' ∧ AtRest s' ∧ (jobs.map Job.id).Nodup ∧ jobs.length = 3 ∧
        ∃ id ∈ [7, 10, 13, 21], ∀ job ∈ jobs, job.id ≠ id := by
  have hreach := reachable_stateAfter bulkEvents
  have hrest : AtRest (stateAfter bulkEvents) :=
    atRest_of_keys (Txn.System.wf exampleDb_initial.wf hreach) (by decide +kernel)
  obtain ⟨s', jobs, hruns, -, hrest', hnodup, hlimit, -, hother, hall⟩ :=
    claim_conserves_work exampleDb_initial hreach hrest (t := 7) (by decide +kernel) bulkClaim
  have huncapped : ¬ Full (committedView s'.mem) 8 := by
    rintro ⟨cap, hcap, -⟩
    have hrow := hother (.queue 8) fun job _ => by simp
    have hnone : (committedQueue (stateAfter bulkEvents).mem 8).bind Queue.maxConcurrency = none := by
      decide +kernel
    rw [committedQueue, ← hrow] at hnone
    exact Option.some_ne_none _ (hcap.symm.trans hnone)
  have helig : ([7, 10, 13].all bulkEligible) = true := by decide +kernel
  have htaken : ∀ id ∈ [7, 10, 13], jobs.length ≠ 3 → ∃ job ∈ jobs, job.id = id := by
    intro id hid hless
    obtain ⟨e, he, hand⟩ := (Option.any_eq_true _ _).mp (List.all_eq_true.mp helig id hid)
    obtain ⟨hqueue, hwhere⟩ := of_decide_eq_true hand
    rcases hall id e he (.inl hwhere) with hin | hfull | hfull
    · exact hin
    · exact absurd hfull hless
    · exact absurd (hqueue ▸ hfull) huncapped
  have hlength : jobs.length = 3 := by
    by_contra hless
    have hle := le_length_of_subset (by decide) fun id hid => htaken id hid hless
    exact hless (Nat.le_antisymm hlimit hle)
  refine ⟨hrest, s', jobs, hruns, hrest', hnodup, hlength, ?_⟩
  by_contra hnone
  push Not at hnone
  have hle : [7, 10, 13, 21].length ≤ jobs.length := le_length_of_subset (by decide) hnone
  rw [hlength] at hle
  cases Nat.not_succ_le_self 3 hle

end Claim

section Sweeps

variable {offlineAfterSeconds : Int} {rank : JobId → Nat} {rng : JobId → Draw} {now : Time}
  {v v' : Snapshot} {e e' : JobEntry}

-- The jobs whose lease has expired.
def expiredJobs (s : State) : List (JobId × JobEntry) :=
  (committedView s.mem).jobsWhere fun e => expiredWhere s.mem.clock e.job

-- A sweep has taken the job from a worker that let its lease expire.
structure Recovered (now : Time) (e e' : JobEntry) : Prop where
  expired : expiredWhere now e.job = true
  status : e'.job.status = if e.job.attemptCount < e.job.maxAttempts then .pending else .dead
  unlocked : e'.job.lockedBy = none ∧ e'.job.leaseExpiresAt = none
  error : e'.job.lastError = some (leaseExpiredError e.job.lockedBy)
  attempts : e'.attempts = (e.finishAttempt e.job.attemptCount .lost
    (some (leaseExpiredError e.job.lockedBy)) now).attempts
  kept : e'.job.attemptCount = e.job.attemptCount ∧ e'.job.queueId = e.job.queueId ∧
    e'.dependsOn = e.dependsOn

theorem recovered_reclaimedEntry (hok : e.Ok) (hexpired : expiredWhere now e.job = true) :
    Recovered now e (reclaimedEntry rng now e) := by
  have hrunning : e.job.status = .running := by
    rw [expiredWhere, decide_eq_true_eq] at hexpired
    exact hexpired.1
  obtain ⟨decision, hd⟩ := decideFailure_ok (policyOf e.job) (rng e.job.id) (hok.row.claimed hrunning)
  have hretry := decideFailure_retry hd
  rw [reclaimedEntry, hd]
  cases hr : decision.retry with
  | true =>
      have hleft : e.job.attemptCount < e.job.maxAttempts := hretry.mp hr
      constructor <;> simp [hexpired, JobEntry.amend, JobEntry.finishAttempt, reclaimValues, hr, hleft]
  | false =>
      have hspent : ¬ e.job.attemptCount < e.job.maxAttempts := fun hlt => by
        simp [hretry.mpr hlt] at hr
      constructor <;> simp [hexpired, JobEntry.amend, JobEntry.finishAttempt, reclaimValues, hr,
        hspent]

theorem Recovered.idle (h : Recovered now e e') : e'.job.status ≠ .running := by
  rw [h.status]
  split <;> simp

theorem Recovered.not_expired (h : Recovered now e e') (now' : Time) :
    expiredWhere now' e'.job = false := by
  simp [expiredWhere, h.idle]

-- A sweep takes the first hundred off the list of expired jobs.
theorem ids_expiredRows_of_sweeps (hv : v.keys.Nodup) (hok : ∀ id e, v.job id = some e → e.Ok)
    (h : Sweeps offlineAfterSeconds rank rng now v v') :
    ((expiredRows rank now v').map Prod.fst).Perm
      (((expiredRows rank now v).map Prod.fst).drop expiredLimit) := by
  have hnodup : ((expiredRows rank now v).map Prod.fst).Nodup := nodup_expiredRows hv
  have hnodup' : ((expiredRows rank now v').map Prod.fst).Nodup :=
    nodup_expiredRows (h.keys ▸ hv)
  refine (List.perm_ext_iff_of_nodup hnodup' (hnodup.sublist (List.drop_sublist _ _))).mpr
    fun id => ?_
  have hsplit : id ∈ (expiredRows rank now v).map Prod.fst ↔
      id ∈ ((expiredRows rank now v).map Prod.fst).take expiredLimit ∨
        id ∈ ((expiredRows rank now v).map Prod.fst).drop expiredLimit := by
    rw [← List.mem_append, List.take_append_drop]
  by_cases htaken : id ∈ ((expiredRows rank now v).map Prod.fst).take expiredLimit
  · have hleft := List.disjoint_take_drop hnodup (Nat.le_refl expiredLimit) htaken
    refine iff_of_false (fun hin => ?_) hleft
    rw [← List.map_take] at htaken
    obtain ⟨p, hp, rfl⟩ := List.mem_map.mp htaken
    obtain ⟨q, hq, heq⟩ := List.mem_map.mp hin
    obtain ⟨-, hjob, hexpired⟩ := mem_expiredRows.mp hq
    obtain ⟨-, hjob₀, hexpired₀⟩ := mem_expiredRows.mp (List.mem_of_mem_take hp)
    rw [heq, h.reclaimed p hp, Option.some.injEq] at hjob
    rw [← hjob, (recovered_reclaimedEntry (hok _ _ hjob₀) hexpired₀).not_expired] at hexpired
    cases hexpired
  · rw [or_iff_right htaken] at hsplit
    rw [← hsplit, List.mem_map, List.mem_map]
    have hrow : v'.job id = v.job id := by
      refine h.other (.job id) (fun p hp heq => htaken ?_) (by simp)
      rw [← List.map_take, Key.job.inj heq]
      exact List.mem_map_of_mem hp
    constructor
    · rintro ⟨⟨i, d⟩, hp, rfl⟩
      obtain ⟨hkey, hjob, hexpired⟩ := mem_expiredRows.mp hp
      exact ⟨(i, d), mem_expiredRows.mpr ⟨h.keys ▸ hkey, hrow ▸ hjob, hexpired⟩, rfl⟩
    · rintro ⟨⟨i, d⟩, hp, rfl⟩
      obtain ⟨hkey, hjob, hexpired⟩ := mem_expiredRows.mp hp
      exact ⟨(i, d), mem_expiredRows.mpr ⟨h.keys.symm ▸ hkey, hrow.symm ▸ hjob, hexpired⟩, rfl⟩

theorem length_expiredRows (rank : JobId → Nat) (s : State) :
    (expiredRows rank s.mem.clock (committedView s.mem)).length = (expiredJobs s).length := by
  rw [expiredRows, List.length_insertionSort, expiredJobs]

theorem length_expiredJobs_of_sweeps {s' : State} (hm : Initial m) (h : system.Reachable m s)
    (hclock : s'.mem.clock = s.mem.clock) (hsweep : Sweeps offlineAfterSeconds rank rng s.mem.clock
      (committedView s.mem) (committedView s'.mem)) :
    (expiredJobs s').length = (expiredJobs s).length - expiredLimit := by
  have hok := (Run.inv hm (run_of_reachable h)).inv.ok
  have hperm := (ids_expiredRows_of_sweeps (keyable_of_reachable hm h).nodup hok hsweep).length_eq
  rw [List.length_drop, List.length_map, List.length_map, length_expiredRows, ← hclock,
    length_expiredRows] at hperm
  exact hperm

-- What a sweep makes of every job.
theorem Sweeps.job (hok : ∀ id e, v.job id = some e → e.Ok)
    (h : Sweeps offlineAfterSeconds rank rng now v v') {id : JobId} (he : v.job id = some e) :
    ∃ e', v'.job id = some e' ∧ (e' = e ∨ Recovered now e e') := by
  by_cases hin : ∃ p ∈ (expiredRows rank now v).take expiredLimit, p.1 = id
  · obtain ⟨p, hp, rfl⟩ := hin
    obtain ⟨-, hjob, hexpired⟩ := mem_expiredRows.mp (List.mem_of_mem_take hp)
    obtain rfl : p.2 = e := Option.some.inj (hjob.symm.trans he)
    exact ⟨_, h.reclaimed p hp, .inr (recovered_reclaimedEntry (hok _ _ he) hexpired)⟩
  · refine ⟨e, (h.other (.job id) (fun p hp heq => hin ⟨p, hp, ?_⟩) (by simp)).trans he, .inl rfl⟩
    exact (Key.job.inj heq).symm

theorem Sweeps.of_job (hok : ∀ id e, v.job id = some e → e.Ok)
    (h : Sweeps offlineAfterSeconds rank rng now v v') {id : JobId} (he' : v'.job id = some e') :
    ∃ e, v.job id = some e ∧ (e' = e ∨ Recovered now e e') := by
  cases he : v.job id with
  | some e =>
      obtain ⟨d, hd, hchange⟩ := h.job hok he
      exact ⟨e, rfl, Option.some.inj (hd.symm.trans he') ▸ hchange⟩
  | none =>
      have hsame : v'.job id = v.job id := by
        refine h.other (.job id) (fun p hp heq => ?_) (by simp)
        have hjob := (mem_expiredRows.mp (List.mem_of_mem_take hp)).2.1
        rw [← Key.job.inj heq, he] at hjob
        cases hjob
      rw [hsame, he] at he'
      cases he'

theorem advisory_stays (hlock : (m.cell (.advisory REAPER_ADVISORY_LOCK_KEY)).committed = some ())
    (h : system.Reachable m s) :
    (s.mem.cell (.advisory REAPER_ADVISORY_LOCK_KEY)).committed = some () := by
  have hsome : (s.mem.cell (.advisory REAPER_ADVISORY_LOCK_KEY)).committed.isSome = true := by
    refine h.invariant (P := fun s =>
      (s.mem.cell (.advisory REAPER_ADVISORY_LOCK_KEY)).committed.isSome = true) ?_ ?_
    · exact Option.isSome_of_eq_some hlock
    · exact fun s ev s' _ hs hstep _ => Txn.System.stays hstep hs
  exact Option.eq_some_of_isSome hsome

theorem sweep_alone (hm : Initial m)
    (hlock : (m.cell (.advisory REAPER_ADVISORY_LOCK_KEY)).committed = some ())
    (h : system.Reachable m s) (hrest : AtRest s) (ht : t ∉ s.mem.opened)
    (offlineAfterSeconds : Int) (rank : JobId → Nat) (rng : JobId → Draw) :
    ∃ s', Reaches system.step (Makes t (.reapOnce offlineAfterSeconds rank rng)) s s' ∧
      s'.thread t = some ⟨.reapOnce offlineAfterSeconds rank rng,
        some (.pure (.count (min (expiredJobs s).length expiredLimit)))⟩ ∧
      s'.mem.clock = s.mem.clock ∧ AtRest s' ∧
      Sweeps offlineAfterSeconds rank rng s.mem.clock (committedView s.mem)
        (committedView s'.mem) := by
  have hok := (Run.inv hm (run_of_reachable h)).inv.ok
  have hbody : Runs t (Settled (committedView s.mem) s.mem.clock)
      ((Call.reapOnce offlineAfterSeconds rank rng).body t) fun r m =>
        r = .count (min (expiredJobs s).length expiredLimit) ∧
          ∃ v', Sweeps offlineAfterSeconds rank rng s.mem.clock (committedView s.mem) v' ∧
            Settled v' s.mem.clock m := by
    refine .bind (runs_reapOnce (keyable_of_reachable hm h) (advisory_stays hlock h)
      fun id e he hrunning => (hok id e he).row.claimed hrunning) fun r => .pure ?_
    rintro m ⟨rfl, hdone⟩
    refine ⟨?_, hdone⟩
    rw [List.length_take, length_expiredRows, Nat.min_comm]
    rfl
  obtain ⟨r, m', ⟨rfl, v', hsweeps, hdone⟩, -, hruns⟩ :=
    call_alone ht rfl (settled_of_rest hm h hrest) hbody
  refine ⟨_, hruns, Txn.Pool.set_thread_self s t _ _ m', hdone.clock, hdone.unlocked, ?_⟩
  rw [Txn.Pool.set_mem, committedView_of_settled hdone]
  exact hsweeps

-- The calls of a list with nobody else at work, each made when the one before has returned, and
-- what they return.
inductive InTurn : State → List Call → List Value → State → Prop
  | nil (s : State) : InTurn s [] [] s
  | cons {s s₁ s' : State} {t : TxId} {c : Call} {calls : List Call} {r : Value}
      {values : List Value} (hfresh : t ∉ s.mem.opened) (hcall : Reaches system.step (Makes t c) s s₁)
      (hreturned : s₁.thread t = some ⟨c, some (.pure r)⟩) (hrest : InTurn s₁ calls values s') :
      InTurn s (c :: calls) (r :: values) s'

-- How many jobs `n` sweeps recover, one after the other, where `expired` leases have expired.
def sweepCounts : Nat → Nat → List Value
  | 0, _ => []
  | n + 1, expired => .count (min expired expiredLimit) :: sweepCounts n (expired - expiredLimit)

-- Each sweep takes up to a hundred jobs whose lease has expired from their workers, as the retry
-- policy has it, and touches no other job.
theorem sweeps_recover (hm : Initial m)
    (hlock : (m.cell (.advisory REAPER_ADVISORY_LOCK_KEY)).committed = some ())
    (h : system.Reachable m s) (hrest : AtRest s) (sweeps : List Call)
    (hsweeps : ∀ c ∈ sweeps, ∃ offlineAfterSeconds rank rng,
      c = .reapOnce offlineAfterSeconds rank rng) :
    ∃ s', InTurn s sweeps (sweepCounts sweeps.length (expiredJobs s).length) s' ∧
      s'.mem.clock = s.mem.clock ∧ AtRest s' ∧
      (expiredJobs s').length = (expiredJobs s).length - sweeps.length * expiredLimit ∧
      (∀ id e, committedJob s.mem id = some e →
        ∃ e', committedJob s'.mem id = some e' ∧ (e' = e ∨ Recovered s.mem.clock e e')) ∧
      ∀ k, (∀ id, k ≠ .job id) → (∀ id, k ≠ .worker id) →
        (s'.mem.cell k).committed = (s.mem.cell k).committed := by
  induction sweeps generalizing s with
  | nil =>
      refine ⟨s, .nil s, rfl, hrest, by simp, fun id e he => ⟨e, he, .inl rfl⟩, ?_⟩
      exact fun _ _ _ => rfl
  | cons c sweeps ih =>
      obtain ⟨offlineAfterSeconds, rank, rng, rfl⟩ := hsweeps c List.mem_cons_self
      obtain ⟨t, ht⟩ := Txn.exists_fresh s.mem
      obtain ⟨s₁, hruns, hreturned, hclock, hrest₁, hone⟩ :=
        sweep_alone hm hlock h hrest ht offlineAfterSeconds rank rng
      have hok := (Run.inv hm (run_of_reachable h)).inv.ok
      have hreach₁ : system.Reachable m s₁ := h.trans (hruns.mono fun _ _ _ _ => trivial)
      obtain ⟨s', hturn, hclock', hrest', hcount, hjobs, hother⟩ :=
        ih hreach₁ hrest₁ fun c hc => hsweeps c (List.mem_cons_of_mem _ hc)
      have hleft := length_expiredJobs_of_sweeps hm h hclock hone
      rw [hleft] at hturn hcount
      refine ⟨s', .cons ht hruns hreturned hturn, hclock'.trans hclock, hrest', ?_, ?_,
        fun k hjob hworker => ?_⟩
      · rw [hcount, List.length_cons, Nat.sub_sub]
        congr 1
        rw [Nat.add_mul, Nat.one_mul, Nat.add_comm]
      · intro id e he
        obtain ⟨e₁, he₁, hchange⟩ :=
          Sweeps.job (v := committedView s.mem) hok hone he
        obtain ⟨e', he', hchange'⟩ := hjobs id e₁ he₁
        refine ⟨e', he', ?_⟩
        rcases hchange with rfl | hrecovered
        · exact hclock ▸ hchange'
        · rcases hchange' with rfl | hagain
          · exact .inr hrecovered
          · -- a job that has been recovered has no lease to expire
            have hexpired := hagain.expired
            rw [hrecovered.not_expired] at hexpired
            cases hexpired
      · refine (hother k hjob hworker).trans (hone.other k (fun p _ => hjob p.1) hworker)

-- The lease of the worker that was handed the job has expired.
def lapsedEvents : List Event := claimedEvents ++ [.tick 31]

theorem sweeps_recover_lapsed : (expiredJobs (stateAfter lapsedEvents)).length = 1 ∧
    ∃ s' : State, InTurn (stateAfter lapsedEvents) [.reapOnce 60 id fun _ => Draw.zero] [.count 1] s' ∧
      AtRest s' ∧ (expiredJobs s').length = 0 := by
  have hreach := reachable_stateAfter lapsedEvents
  have hrest : AtRest (stateAfter lapsedEvents) :=
    atRest_of_keys (Txn.System.wf exampleDb_initial.wf hreach) (by decide +kernel)
  have hexpired : (expiredJobs (stateAfter lapsedEvents)).length = 1 := by decide +kernel
  obtain ⟨s', hturn, -, hrest', hcount, -⟩ := sweeps_recover exampleDb_initial (by decide) hreach
    hrest [.reapOnce 60 id fun _ => Draw.zero] fun c hc => ⟨60, id, _, List.mem_singleton.mp hc⟩
  rw [hexpired] at hturn hcount
  exact ⟨hexpired, s', hturn, hrest', hcount⟩

end Sweeps

end Chronos
