import Chronos.Cron.Runs
import Chronos.Theorems.Aging

namespace Chronos

open Txn (Reaches)
open JobRepository

-- The prerequisites of a job have succeeded.
def unblocked (m : Db) (e : JobEntry) : Bool :=
  e.dependsOn.all fun d => (committedJob m d).any fun dep => dep.job.status = .succeeded

-- The run_at of a job that nothing else keeps from being claimed.
def waits (m : Db) (id : JobId) : Option Time :=
  (committedJob m id).bind fun e =>
    if e.job.status = .pending ∧ unblocked m e then some e.job.runAt else none

-- A state of the system, and since when each job has been waiting for its run_at, or a worker,
-- only.
structure Watched where
  pool : CronState
  since : JobId → Time

namespace Watched

def init (m : Db) : Watched := ⟨Txn.Pool.init m, fun _ => m.clock⟩

def step (cron : CronClock) (owner : ScheduleId → UserId) (w : Watched) (ev : CronEvent) :
    Option Watched :=
  ((cronSystem cron owner).step w.pool ev).map fun s =>
    ⟨s, fun id => if waits s.mem id = waits w.pool.mem id then w.since id else s.mem.clock⟩

-- The instant from which the job could have been claimed.
def readyAt (w : Watched) (id : JobId) (job : Job) : Time := max (w.since id) job.runAt

end Watched

-- Whenever a waiting job may be claimed, it is boosted for the time it could have been claimed
-- in only.
def Earned (w : Watched) : Prop :=
  ∀ id e, committedJob w.pool.mem id = some e → (waits w.pool.mem id).isSome = true →
    ∀ aging, 0 < aging.intervalSeconds → ∀ now, w.readyAt id e.job ≤ now →
      priorityKey aging now e.job - e.job.priority ≤
        ⌊(now - w.readyAt id e.job) / aging.intervalSeconds⌋

-- A COMMIT that makes a job wait for its run_at only comes no later than that.
def InTime (s : CronState) : CronEvent → Prop
  | .run t => ∀ c next, s.thread t = some ⟨c, some (.op .commit next)⟩ →
      ∀ id runAt, waits (s.mem.commit t) id = some runAt → waits s.mem id ≠ some runAt →
        s.mem.clock ≤ runAt
  | _ => True

section Waiting

variable {m m' : Db} {id : JobId}

theorem waits_eq_some {runAt : Time} (h : waits m id = some runAt) :
    ∃ e, committedJob m id = some e ∧ e.job.runAt = runAt := by
  obtain ⟨e, he, hwaits⟩ := Option.bind_eq_some_iff.mp h
  split at hwaits
  · exact ⟨e, he, Option.some.inj hwaits⟩
  · cases hwaits

-- Whether a job waits is a matter of the committed rows.
theorem waits_congr (h : ∀ k, (m'.cell k).committed = (m.cell k).committed) (id : JobId) :
    waits m' id = waits m id := by
  have hjob : committedJob m' = committedJob m := funext fun id => h (.job id)
  unfold waits unblocked
  rw [hjob]

end Waiting

section Boosts

variable {job : Job} {since : Time}

theorem boost_of_le {aging : Aging} {now : Time} (hi : 0 < aging.intervalSeconds)
    (h : since ≤ job.runAt) : priorityKey aging now job - job.priority ≤
      ⌊(now - max since job.runAt) / aging.intervalSeconds⌋ := by
  obtain ⟨i, b⟩ := aging
  rw [max_eq_right h, priorityKey_of_pos hi]
  have hmin : min ⌊(now - job.runAt) / i⌋ b ≤ ⌊(now - job.runAt) / i⌋ := min_le_left _ _
  omega

-- A point is given for the first second behind the run_at.
theorem boost_of_lt (h : job.runAt < since) : ∃ now, max since job.runAt ≤ now ∧
    ⌊(now - max since job.runAt) / ((1 : Int) : ℚ)⌋ <
      priorityKey ⟨1, 1⟩ now job - job.priority := by
  refine ⟨max since (job.runAt + 1), ?_, ?_⟩
  · rw [max_eq_left h.le]
    exact le_max_left _ _
  · have hboost : priorityKey ⟨1, 1⟩ (max since (job.runAt + 1)) job = job.priority + 1 := by
      rw [priorityKey_of_pos (by decide), min_eq_right]
      rw [Int.le_floor]
      have hlate : job.runAt + 1 ≤ max since (job.runAt + 1) := le_max_right _ _
      push_cast
      linarith
    have hearned : ⌊(max since (job.runAt + 1) - since) / ((1 : Int) : ℚ)⌋ < 1 := by
      rw [Int.floor_lt]
      push_cast
      rcases le_total since (job.runAt + 1) with hle | hle
      · rw [max_eq_right hle]
        linarith
      · rw [max_eq_left hle]
        norm_num
    rw [hboost, max_eq_left h.le]
    omega

end Boosts

theorem earned_iff {w : Watched} : Earned w ↔
    ∀ id runAt, waits w.pool.mem id = some runAt → w.since id ≤ runAt := by
  constructor
  · intro h id runAt hwaits
    obtain ⟨e, he, rfl⟩ := waits_eq_some hwaits
    by_contra hlt
    obtain ⟨now, hnow, hboost⟩ := boost_of_lt (not_le.mp hlt)
    have hearned := h id e he (by rw [hwaits]; rfl) ⟨1, 1⟩ (by decide) now hnow
    exact absurd hearned (not_le.mpr hboost)
  · intro h id e he hwaits aging hi now hnow
    obtain ⟨runAt, hrunAt⟩ := Option.isSome_iff_exists.mp hwaits
    obtain ⟨e', he', rfl⟩ := waits_eq_some hrunAt
    obtain rfl := Option.some.inj (he.symm.trans he')
    exact boost_of_le hi (h id _ hrunAt)

section Runs

variable {cron : CronClock} {owner : ScheduleId → UserId} {w w' : Watched} {ev : CronEvent}

theorem earned_init {m : Db} (hm : ∀ id, committedJob m id = none) : Earned (.init m) := by
  intro id e he
  cases (hm id).symm.trans he

theorem step_pool (h : w.step cron owner ev = some w') :
    (cronSystem cron owner).step w.pool ev = some w'.pool ∧ ∀ id, w'.since id =
      if waits w'.pool.mem id = waits w.pool.mem id then w.since id else w'.pool.mem.clock := by
  obtain ⟨s, hs, rfl⟩ := Option.map_eq_some_iff.mp h
  exact ⟨hs, fun _ => rfl⟩

-- One step leaves the boosts earned exactly if it is in time.
theorem earned_step (hw : Earned w) (h : w.step cron owner ev = some w') :
    Earned w' ↔ InTime w.pool ev := by
  obtain ⟨hstep, hsince⟩ := step_pool h
  rw [earned_iff] at hw ⊢
  constructor
  · intro hw'
    cases ev with
    | run t =>
        intro c next ht id runAt hwaits hnew
        have hmem : w'.pool.mem = w.pool.mem.commit t := by
          simp only [Txn.System.step, ht, Txn.exec, Option.some.injEq] at hstep
          exact hstep ▸ rfl
        rw [← hmem] at hwaits
        have hne : waits w'.pool.mem id ≠ waits w.pool.mem id :=
          fun heq => hnew (heq.symm.trans hwaits)
        have hle := hw' id runAt hwaits
        rw [hsince id, if_neg hne, hmem] at hle
        exact hle
    | _ => trivial
  · intro htime id runAt hwaits
    rw [hsince id]
    by_cases hsame : waits w'.pool.mem id = waits w.pool.mem id
    · rw [if_pos hsame]
      exact hw id runAt (hsame ▸ hwaits)
    · rw [if_neg hsame]
      have hchanged : ¬ ∀ k, (w'.pool.mem.cell k).committed = (w.pool.mem.cell k).committed :=
        fun hall => hsame (waits_congr hall id)
      obtain ⟨k, hk⟩ := not_forall.mp hchanged
      obtain ⟨t, c, next, v, rfl, ht, hmem, -, -⟩ := Txn.System.publication hstep hk
      rw [hmem] at hwaits hsame ⊢
      exact htime c next ht id runAt hwaits fun heq => hsame (hwaits.trans heq.symm)

-- The states of a run in which no job has been boosted for more than the time it could have been
-- claimed in are those of a run whose commits are in time.
theorem boosts_earned {m : Db} (hm : ∀ id, committedJob m id = none) :
    Reaches (Watched.step cron owner) (fun _ _ w' => Earned w') (.init m) w ↔
      Reaches (Watched.step cron owner) (fun w ev _ => InTime w.pool ev) (.init m) w :=
  Reaches.iff_of_step (earned_init hm) fun _ _ _ _ hw hstep => earned_step hw hstep

end Runs

section Checks

-- `InTime`, for the jobs there are.
def inTime (s : CronState) : CronEvent → Bool
  | .run t =>
      match s.thread t with
      | some ⟨_, some (.op .commit _)⟩ => (s.mem.keys.filterMap Key.jobId).all fun id =>
          (waits (s.mem.commit t) id).all fun runAt =>
            waits s.mem id = some runAt ∨ s.mem.clock ≤ runAt
      | _ => true
  | _ => true

theorem inTime_sound {s : CronState} {ev : CronEvent} (hwf : s.mem.WF) (h : inTime s ev = true) :
    InTime s ev := by
  cases ev with
  | run t =>
      intro c next ht id runAt hwaits hnew
      obtain ⟨e, he, -⟩ := waits_eq_some hwaits
      have hkey : Key.job id ∈ s.mem.keys := hwf.commit.mem_of_committed he
      simp only [inTime, ht, List.all_eq_true] at h
      have hall := h id (List.mem_filterMap.mpr ⟨_, hkey, rfl⟩)
      rw [hwaits, Option.all_some, decide_eq_true_eq] at hall
      exact hall.resolve_left hnew
  | _ => trivial

variable {cron : CronClock} {owner : ScheduleId → UserId} {m : Db} {w : Watched}

theorem reaches_inTime (hm : m.WF) (h : Reaches (Watched.step cron owner)
    (fun w ev _ => inTime w.pool ev = true) (.init m) w) :
    Reaches (Watched.step cron owner) (fun w ev _ => InTime w.pool ev) (.init m) w := by
  have hboth : Reaches (Watched.step cron owner) (fun w ev _ => InTime w.pool ev) (.init m) w ∧
      (cronSystem cron owner).Reachable m w.pool := by
    induction h with
    | refl => exact ⟨.refl, .refl⟩
    | tail hs he hok ih =>
        refine ⟨.tail ih.1 he (inTime_sound (Txn.System.wf hm ih.2) hok), ?_⟩
        exact .tail ih.2 (step_pool he).1 trivial
  exact hboth.1

end Checks

section Example

def watchedAfter (check : CronState → CronEvent → Bool) (events : List CronEvent) : Watched :=
  (Txn.runAll (Watched.step exampleCron fun _ => 0) (fun w ev _ => check w.pool ev) (.init cronDb)
    events).getD (.init cronDb)

theorem reaches_watchedAfter (check : CronState → CronEvent → Bool) (events : List CronEvent) :
    Reaches (Watched.step exampleCron fun _ => 0) (fun w ev _ => check w.pool ev = true)
      (.init cronDb) (watchedAfter check events) :=
  Reaches.getD_runAll (fun (w : Watched) ev _ => check w.pool ev) events

-- The job waits for a worker, and its run_at was over before.
def overdue (id : JobId) (w : Watched) : Bool :=
  (waits w.pool.mem id).any fun runAt => runAt < w.since id

theorem not_earned {id : JobId} {w : Watched} (h : overdue id w = true) : ¬ Earned w := by
  intro hw
  obtain ⟨runAt, hwaits, hlt⟩ := (Option.any_eq_true _ _).mp h
  exact absurd (earned_iff.mp hw id runAt hwaits) (not_le.mpr (by simpa using hlt))

-- A request with a run_at in the past.
def pastEvents : List CronEvent :=
  cronWhole 1 (.request exampleUser
    (.createJob { exampleBody none [] with runAt := some (-6000) } none ⟨7, 8, 9⟩)) 8

-- A job whose prerequisite succeeds ten minutes after its run_at.
def blockedEvents : List CronEvent :=
  cronWhole 1 (.request exampleUser (.createJob (exampleBody none []) none ⟨7, 80, 9⟩)) 8 ++
    cronWhole 2 (.request exampleUser (.createJob (exampleBody none [7]) none ⟨17, 80, 9⟩)) 8 ++
    .tick 600 :: cronWhole 3 (.call (.claimJobs (exampleClaim 5))) 7 ++
    cronWhole 4 (.call (.finalize 3 (exampleJob 5 1 600) 5 (.completeSuccess none))) 5

-- A schedule fires two ticks late.
def lateFiringEvents : List CronEvent :=
  overdueEvents ++ List.replicate 2 (.run 2)

-- A transaction commits a minute after it began.
def slowEvents : List CronEvent :=
  cronWhole 1 (.request exampleUser (.createJob (exampleBody none []) none ⟨7, 8, 9⟩)) 6 ++
    .tick 60 :: List.replicate 2 (.run 1)

-- The ways to be boosted for time in which no worker could have claimed the job.
theorem boosts_unearned :
    (¬ ∀ cron owner m w, (∀ id, committedJob m id = none) →
      Reaches (Watched.step cron owner) (fun _ _ _ => True) (.init m) w → Earned w) ∧
    ([(7, pastEvents), (17, blockedEvents), (103, lateFiringEvents), (7, slowEvents)].all
      fun p => overdue p.1 (watchedAfter (fun _ _ => true) p.2)) = true := by
  refine ⟨fun h => ?_, by decide +kernel⟩
  have hreach : Reaches (Watched.step exampleCron fun _ => 0) (fun _ _ _ => True) (.init cronDb)
      (watchedAfter (fun _ _ => true) pastEvents) :=
    (reaches_watchedAfter (fun _ _ => true) pastEvents).mono fun _ _ _ _ => trivial
  have hoverdue : overdue 7 (watchedAfter (fun _ _ => true) pastEvents) = true := by
    decide +kernel
  exact not_earned hoverdue (h _ _ cronDb _ (fun _ => rfl) hreach)

-- A job is claimed, released by its worker five minutes later, and waits again.
def releasedEvents : List CronEvent :=
  cronWhole 1 (.request exampleUser (.createJob (exampleBody none []) none ⟨7, 8, 9⟩)) 8 ++
    cronWhole 2 (.call (.claimJobs (exampleClaim 5))) 7 ++
    .tick 300 :: cronWhole 3 (.call (.finalize 2 (exampleJob 5 1 0) 5 .releaseJob)) 5 ++
    [.tick 420]

theorem boosts_earned_released :
    waits (watchedAfter inTime releasedEvents).pool.mem 7 = some 300 ∧
      Reaches (Watched.step exampleCron fun _ => 0) (fun _ _ w' => Earned w') (.init cronDb)
        (watchedAfter inTime releasedEvents) := by
  refine ⟨by decide +kernel, (boosts_earned fun _ => rfl).mpr ?_⟩
  exact reaches_inTime cronDb_initial.wf (reaches_watchedAfter inTime releasedEvents)

end Example

end Chronos
