import Mathlib.Algebra.Order.BigOperators.Group.List
import Chronos.Refinement.Checks
import Chronos.Refinement.NewJobs
import Chronos.Repositories.Stats

namespace Chronos

open Txn (Reaches)
open JobRepository

-- A claim of a job: its time, and the run_at in force when it was made.
structure ClaimTime where
  claimedAt : Time
  runAt : Time
deriving DecidableEq

-- The version `e'` of a row is that of a claim of `e`.
def claimOf (e e' : JobEntry) : Option ClaimTime :=
  if e.job.status = .pending ∧ e'.job.status = .running then
    e'.job.startedAt.map fun startedAt => ⟨startedAt, e.job.runAt⟩
  else none

-- A state of the system, and the last claim of each job.
structure Claimed where
  pool : State
  last : JobId → Option ClaimTime

namespace Claimed

def init (m : Db) : Claimed := ⟨Txn.Pool.init m, fun _ => none⟩

def recorded (last : Option ClaimTime) (before after : Option JobEntry) : Option ClaimTime :=
  (before.bind fun e => after.bind fun e' => claimOf e e') <|> last

def step (w : Claimed) (ev : Event) : Option Claimed :=
  (system.step w.pool ev).map fun s =>
    ⟨s, fun id => recorded (w.last id) (committedJob w.pool.mem id) (committedJob s.mem id)⟩

end Claimed

-- Each sample of claim_wait_stats is the time from the run_at a claim found to that claim.
structure WaitsMeasured (w : Claimed) : Prop where
  sample : ∀ id e, committedJob w.pool.mem id = some e → ∀ windowSeconds now wait,
    claimWait windowSeconds now e = some wait →
      0 ≤ wait ∧ w.last id = some ⟨e.job.runAt + wait, e.job.runAt⟩
  stats : ∀ v : Snapshot, (∀ id e, v.job id = some e → committedJob w.pool.mem id = some e) →
    ∀ windowSeconds now, 0 ≤ (claimWaitStats windowSeconds now v).1 ∧
      0 ≤ (claimWaitStats windowSeconds now v).2

-- No COMMIT gives a job that has been claimed another run_at.
def KeepsRunAt (s : State) : Event → Prop
  | .run t => ∀ c next, s.thread t = some ⟨c, some (.op .commit next)⟩ →
      ∀ id e e', committedJob s.mem id = some e → committedJob (s.mem.commit t) id = some e' →
        e.job.startedAt.isSome = true → e'.job.runAt = e.job.runAt
  | _ => True

section Samples

variable {e e' : JobEntry} {op : JobOp} {windowSeconds : Int} {now startedAt : Time} {wait : ℚ}

theorem claimWait_eq_some (h : claimWait windowSeconds now e = some wait) :
    e.job.startedAt = some (e.job.runAt + wait) := by
  obtain ⟨startedAt, hs, hwait⟩ := Option.bind_eq_some_iff.mp h
  split at hwait
  · obtain rfl := Option.some.inj hwait
    rw [hs, add_sub_cancel]
  · cases hwait

-- Some window shows every job that has been claimed.
theorem claimWait_of_startedAt (h : e.job.startedAt = some startedAt) :
    claimWait 0 startedAt e = some (startedAt - e.job.runAt) := by
  simp [claimWait, h]

theorem claimWaitStats_nonneg {v : Snapshot}
    (h : ∀ wait ∈ claimWaits windowSeconds now v, 0 ≤ wait) :
    0 ≤ (claimWaitStats windowSeconds now v).1 ∧ 0 ≤ (claimWaitStats windowSeconds now v).2 := by
  constructor
  · simp only [claimWaitStats]
    split
    · exact le_refl 0
    · exact div_nonneg (List.sum_nonneg h) (Nat.cast_nonneg _)
  · simp only [claimWaitStats]
    cases hmax : (claimWaits windowSeconds now v).max? with
    | none => exact le_refl 0
    | some wait => exact h wait (List.max?_mem hmax)

theorem mem_claimWaits {v : Snapshot} (h : wait ∈ claimWaits windowSeconds now v) :
    ∃ id e, v.job id = some e ∧ claimWait windowSeconds now e = some wait := by
  obtain ⟨p, hp, hwait⟩ := List.mem_filterMap.mp h
  obtain ⟨-, he, -⟩ := mem_jobsWhere.mp hp
  exact ⟨p.1, p.2, he, hwait⟩

-- Only a claim makes a job RUNNING and sets its started_at, and it takes no job before its run_at.
theorem JobOp.Applies.claimTime (h : op.Applies e e') :
    (∃ now, claimOf e e' = some ⟨now, e.job.runAt⟩ ∧ e'.job.startedAt = some now ∧
      e'.job.runAt = e.job.runAt ∧ e.job.runAt ≤ now) ∨
    claimOf e e' = none ∧ e'.job.startedAt = e.job.startedAt := by
  have hnot : e.job.status ≠ .pending ∨ e'.job.status ≠ .running → claimOf e e' = none :=
    fun hstatus => if_neg fun hboth => hstatus.elim (· hboth.1) (· hboth.2)
  cases h with
  | claim tx workerId leaseSeconds now pass e hpending hready =>
      exact .inl ⟨now, if_pos ⟨hpending, rfl⟩, rfl, rfl, hready⟩
  | extend workerId leaseSeconds now e hlocked hrunning =>
      exact .inr ⟨hnot (.inl (by simp [hrunning])), rfl⟩
  | finish claim tx snapshot workerId o now e hrunning hlocked =>
      refine .inr ⟨hnot (.inl (by simp [hrunning])), ?_⟩
      cases o with
      | failure error decision =>
          obtain ⟨retry, delay⟩ := decision
          cases retry <;> rfl
      | _ => rfl
  | reclaim rng now decision e hrunning hdecision =>
      refine .inr ⟨hnot (.inl (by simp [hrunning])), ?_⟩
      obtain ⟨retry, delay⟩ := decision
      cases retry <;> rfl
  | cancel ownerId now e howner hpending => exact .inr ⟨hnot (.inr nofun), rfl⟩
  | requeue ownerId now e howner hended => exact .inr ⟨hnot (.inr nofun), rfl⟩
  | summarize text e =>
      refine .inr ⟨hnot ?_, rfl⟩
      by_cases hpending : e.job.status = .pending
      · exact .inr (by simp [JobEntry.assign, setAiSummary, hpending])
      · exact .inl hpending

end Samples

-- What the statistics say of the rows: started_at and run_at are those of the last claim.
theorem waitsMeasured_iff {w : Claimed} : WaitsMeasured w ↔
    ∀ id e startedAt, committedJob w.pool.mem id = some e → e.job.startedAt = some startedAt →
      w.last id = some ⟨startedAt, e.job.runAt⟩ ∧ e.job.runAt ≤ startedAt := by
  constructor
  · intro h id e startedAt he hs
    obtain ⟨hnonneg, hlast⟩ := h.sample id e he 0 startedAt _ (claimWait_of_startedAt hs)
    rw [add_sub_cancel] at hlast
    exact ⟨hlast, by linarith⟩
  · intro h
    have hsample : ∀ id e, committedJob w.pool.mem id = some e → ∀ windowSeconds now wait,
        claimWait windowSeconds now e = some wait →
          0 ≤ wait ∧ w.last id = some ⟨e.job.runAt + wait, e.job.runAt⟩ := by
      intro id e he windowSeconds now wait hwait
      obtain ⟨hlast, hle⟩ := h id e _ he (claimWait_eq_some hwait)
      exact ⟨by linarith, hlast⟩
    refine ⟨hsample, fun v hv windowSeconds now => claimWaitStats_nonneg fun wait hwait => ?_⟩
    obtain ⟨id, e, he, hwait⟩ := mem_claimWaits hwait
    exact (hsample id e (hv id e he) windowSeconds now wait hwait).1

section Runs

variable {m : Db} {w w' : Claimed} {ev : Event}

theorem waitsMeasured_init (hm : Initial m) : WaitsMeasured (.init m) := by
  rw [waitsMeasured_iff]
  intro id e startedAt he
  rw [committedJob, Claimed.init, Txn.Pool.init, hm.job id] at he
  cases he

theorem claimed_step (h : w.step ev = some w') : system.step w.pool ev = some w'.pool ∧
    ∀ id, w'.last id = Claimed.recorded (w.last id) (committedJob w.pool.mem id)
      (committedJob w'.pool.mem id) := by
  obtain ⟨s, hs, rfl⟩ := Option.map_eq_some_iff.mp h
  exact ⟨hs, fun _ => rfl⟩

theorem claimed_reachable {ok : Claimed → Event → Claimed → Prop}
    (h : Reaches Claimed.step ok (.init m) w) : system.Reachable m w.pool := by
  induction h with
  | refl => exact .refl
  | tail hs he hok ih => exact .tail ih (claimed_step he).1 trivial

-- What a step does to a job that has been claimed.
inductive ClaimedStep (w w' : Claimed) (id : JobId) (e' : JobEntry) : Prop
  | same (he : committedJob w.pool.mem id = some e') (hlast : w'.last id = w.last id)
  | claimed (e : JobEntry) (now : Time) (he : committedJob w.pool.mem id = some e)
      (hlast : w'.last id = some ⟨now, e.job.runAt⟩) (hstarted : e'.job.startedAt = some now)
      (hrunAt : e'.job.runAt = e.job.runAt) (hready : e.job.runAt ≤ now)
  | kept (e : JobEntry) (he : committedJob w.pool.mem id = some e) (hlast : w'.last id = w.last id)
      (hstarted : e'.job.startedAt = e.job.startedAt)
  | created (hnone : committedJob w.pool.mem id = none) (hstarted : e'.job.startedAt = none)

theorem claimedStep_of_step (hm : Initial m) (h : system.Reachable m w.pool)
    (hstep : w.step ev = some w') {id : JobId} {e' : JobEntry}
    (he' : committedJob w'.pool.mem id = some e') : ClaimedStep w w' id e' := by
  obtain ⟨hpool, hlast⟩ := claimed_step hstep
  have hrec := hlast id
  cases Run.published hm (run_of_reachable h) hpool (permitted_none _ _ _) id with
  | same heq =>
      have he : committedJob w.pool.mem id = some e' := heq.symm.trans he'
      have hnot : claimOf e' e' = none := if_neg fun hboth => by simp [hboth.1] at hboth
      refine .same he ?_
      rw [hrec, he, he']
      simp [Claimed.recorded, hnot]
  | changed t c p op e d hev ht he hd heff =>
      obtain rfl : d = e' := Option.some.inj (hd.symm.trans he')
      rw [he, he'] at hrec
      rcases heff.applies.claimTime with ⟨now, hclaim, hstarted, hrunAt, hready⟩ | ⟨hclaim, hstarted⟩
      · exact .claimed e now he (by simp [hrec, Claimed.recorded, hclaim]) hstarted hrunAt hready
      · exact .kept e he (by simp [hrec, Claimed.recorded, hclaim]) hstarted
  | created t c p d hev ht hnone hd hnew =>
      obtain ⟨-, -, data, -, -, -, -, hreq⟩ := requested_of_created hm h hpool hnone he'
      obtain ⟨_, _, _, _, _, hjob, -⟩ := hreq.job
      exact .created hnone (by rw [hjob]; rfl)

-- One step leaves the samples measured exactly if it keeps the run_at of the jobs claimed.
theorem waitsMeasured_step (hm : Initial m) (h : system.Reachable m w.pool) (hw : WaitsMeasured w)
    (hstep : w.step ev = some w') : WaitsMeasured w' ↔ KeepsRunAt w.pool ev := by
  rw [waitsMeasured_iff] at hw ⊢
  obtain ⟨hpool, -⟩ := claimed_step hstep
  constructor
  · intro hw'
    cases ev with
    | run t =>
        intro c next ht id e e' he he' hclaimed
        have hmem : w'.pool.mem = w.pool.mem.commit t := by
          simp only [Txn.System.step, ht, Txn.exec, Option.some.injEq] at hpool
          exact hpool ▸ rfl
        rw [← hmem] at he'
        obtain ⟨startedAt, hs⟩ := Option.isSome_iff_exists.mp hclaimed
        cases claimedStep_of_step hm h hstep he' with
        | same hd hlast =>
            obtain rfl := Option.some.inj (he.symm.trans hd)
            rfl
        | claimed d now hd hlast hstarted hrunAt hready =>
            obtain rfl := Option.some.inj (he.symm.trans hd)
            exact hrunAt
        | kept d hd hlast hstarted =>
            obtain rfl := Option.some.inj (he.symm.trans hd)
            have hbefore := (hw id e startedAt he hs).1
            have hafter := (hw' id e' startedAt he' (hstarted.trans hs)).1
            rw [hlast, hbefore, Option.some.injEq, ClaimTime.mk.injEq] at hafter
            exact hafter.2.symm
        | created hnone hstarted =>
            rw [he] at hnone
            cases hnone
    | _ => trivial
  · intro hkeeps id e' startedAt he' hs
    cases claimedStep_of_step hm h hstep he' with
    | same he hlast =>
        rw [hlast]
        exact hw id e' startedAt he hs
    | claimed e now he hlast hstarted hrunAt hready =>
        obtain rfl : now = startedAt := Option.some.inj (hstarted.symm.trans hs)
        rw [hlast, hrunAt]
        exact ⟨rfl, hready⟩
    | kept e he hlast hstarted =>
        have hbefore := hw id e startedAt he (hstarted.symm.trans hs)
        have hrunAt : e'.job.runAt = e.job.runAt := by
          by_cases hsame : committedJob w'.pool.mem id = committedJob w.pool.mem id
          · rw [he', he, Option.some.injEq] at hsame
            rw [hsame]
          · obtain ⟨t, c, next, v, rfl, ht, hmem, -, -⟩ :=
              Txn.System.publication (k := Key.job id) hpool hsame
            rw [hmem] at he'
            exact hkeeps c next ht id e e' he he' (by rw [← hstarted, hs]; rfl)
        rw [hlast, hrunAt]
        exact hbefore
    | created hnone hstarted =>
        rw [hs] at hstarted
        cases hstarted

end Runs

-- The runs in which the statistics measure waits are those in which a job that has been claimed
-- keeps its run_at.
theorem claim_waits_measured {m : Db} {w : Claimed} (hm : Initial m) :
    Reaches Claimed.step (fun _ _ w' => WaitsMeasured w') (.init m) w ↔
      Reaches Claimed.step (fun w ev _ => KeepsRunAt w.pool ev) (.init m) w :=
  Reaches.iff_of_step (waitsMeasured_init hm) fun _ _ _ hreach hw hstep =>
    waitsMeasured_step hm (claimed_reachable hreach) hw hstep

section Example

-- `KeepsRunAt`, for the jobs there are.
def keepsRunAt (s : State) : Event → Bool
  | .run t =>
      match s.thread t with
      | some ⟨_, some (.op .commit _)⟩ => (s.mem.keys.filterMap Key.jobId).all fun id =>
          (committedJob s.mem id).all fun e => (committedJob (s.mem.commit t) id).all fun e' =>
            e.job.startedAt = none ∨ e'.job.runAt = e.job.runAt
      | _ => true
  | _ => true

theorem keepsRunAt_sound {s : State} {ev : Event} (hwf : s.mem.WF) (h : keepsRunAt s ev = true) :
    KeepsRunAt s ev := by
  cases ev with
  | run t =>
      intro c next ht id e e' he he' hclaimed
      have hkey : Key.job id ∈ s.mem.keys := hwf.mem_of_committed he
      simp only [keepsRunAt, ht, List.all_eq_true] at h
      have hall := h id (List.mem_filterMap.mpr ⟨_, hkey, rfl⟩)
      rw [he, he', Option.all_some, Option.all_some, decide_eq_true_eq] at hall
      refine hall.resolve_left fun hnone => ?_
      rw [hnone] at hclaimed
      cases hclaimed
  | _ => trivial

def claimsAfter (check : State → Event → Bool) (events : List Event) : Claimed :=
  (Txn.runAll Claimed.step (fun w ev _ => check w.pool ev) (.init exampleDb) events).getD
    (.init exampleDb)

theorem reaches_claimsAfter (check : State → Event → Bool) (events : List Event) :
    Reaches Claimed.step (fun w ev _ => check w.pool ev = true) (.init exampleDb)
      (claimsAfter check events) :=
  Reaches.getD_runAll (fun (w : Claimed) ev _ => check w.pool ev) events

-- The jobs of a state, as the metrics endpoint sees them.
def waitStatsAfter (check : State → Event → Bool) (events : List Event) : ℚ × ℚ :=
  let m := (claimsAfter check events).pool.mem
  claimWaitStats 300 m.clock (m.view 1000)

-- Job 7 is claimed twelve seconds after it was enqueued, and succeeds.
def measuredEvents : List Event :=
  createdEvents ++ [.tick 12] ++ whole 2 (.claimJobs (exampleClaim 5)) 7 ++
  whole 3 (.finalize 2 (exampleJob 5 1 12) 5 (.completeSuccess none)) 5

theorem claim_waits_measured_success : waitStatsAfter keepsRunAt measuredEvents = (12, 12) ∧
    Reaches Claimed.step (fun _ _ w' => WaitsMeasured w') (.init exampleDb)
      (claimsAfter keepsRunAt measuredEvents) := by
  refine ⟨by decide +kernel, (claim_waits_measured exampleDb_initial).mpr ?_⟩
  refine (reaches_claimsAfter keepsRunAt measuredEvents).imp fun w ev w' hreach _ hkeeps => ?_
  exact keepsRunAt_sound (Txn.System.wf exampleDb_initial.wf (claimed_reachable hreach)) hkeeps

-- Its worker releases the job after four minutes: its run_at is now, its started_at is not.
def releasedClaimEvents : List Event :=
  claimedEvents ++ [.tick 240] ++ whole 3 (.finalize 2 (exampleJob 5 1 0) 5 .releaseJob) 5

theorem negative_wait : (¬ ∀ m w, Initial m → Reaches Claimed.step (fun _ _ _ => True) (.init m) w →
      WaitsMeasured w) ∧ waitStatsAfter (fun _ _ => true) releasedClaimEvents = (-240, -240) := by
  refine ⟨fun h => ?_, by decide +kernel⟩
  have hreach : Reaches Claimed.step (fun _ _ _ => True) (.init exampleDb)
      (claimsAfter (fun _ _ => true) releasedClaimEvents) :=
    (reaches_claimsAfter (fun _ _ => true) releasedClaimEvents).mono fun _ _ _ _ => trivial
  have hmeasured := h exampleDb _ exampleDb_initial hreach
  have hwait : (committedJob (claimsAfter (fun _ _ => true) releasedClaimEvents).pool.mem 7).map
      (claimWait 300 240) = some (some (-240)) := by decide +kernel
  obtain ⟨e, he, hsample⟩ := Option.map_eq_some_iff.mp hwait
  have hnonneg := (hmeasured.sample 7 e he 300 240 _ hsample).1
  norm_num at hnonneg

end Example

end Chronos
