import Chronos.Theorems.CronFiring

namespace Chronos

open Txn (TxId Reaches)
open ScheduleRepository (dueWhere)
variable {cron : CronClock} {owner : ScheduleId → UserId} {t : TxId} {now : Time} {m m' : Db}
  {s s' : CronState}

-- A PATCH that sends another expression than the schedule has moves its cursor on purpose.
def CronCall.changesExpr : CronCall → Schedule → Bool
  | .request _ (.updateSchedule _ fields), s => Chronos.changesExpr fields s
  | _, _ => false

-- A call that started at `now` moves the cursor of an unpaused schedule past a tick that was due.
structure TickPassed (now : Time) (c : CronCall) (s s' : Schedule) : Prop where
  running : s.paused = false
  due : s.nextRunAt ≤ now
  past : s.nextRunAt < s'.nextRunAt
  kept : c.changesExpr s = false

-- Every tick that is passed in a run of steps that satisfy `ok` has its job: with the fire key, for
-- the owner, and made as the schedule says.
def TicksFire (cron : CronClock) (owner : ScheduleId → UserId) (m : Db)
    (ok : TxId → Time → CronState → CronEvent → Bool) : Prop :=
  ∀ t now s s' c rest, Reaches (cronSystem cron owner).step
      (fun s e _ => startsAt t now s e = true ∧ ok t now s e = true) (Txn.Pool.init m) s →
    startsAt t now s (.run t) = true → ok t now s (.run t) = true →
      (cronSystem cron owner).step s (.run t) = some s' → s.thread t = some ⟨c, rest⟩ →
        ∀ id sch sch', committedSchedule s.mem id = some sch →
          committedSchedule s'.mem id = some sch' → TickPassed now c sch sch' →
            ∃ i e, committedJob s'.mem i = some e ∧ e.job.content = sch.content cron

-- Ticks fire in runs in which no PATCH that leaves the expression alone moves a due cursor, and
-- every sweep finds no job but the schedule's own under the fire key.
theorem ticks_fire (hcron : cron.Increases) (hm : CronInitial m) :
    TicksFire cron owner m (keepsTick cron) := by
  intro t now s s' c rest hs hstart hok hstep hthread id sch sch' hsch hsch' htick
  let w : Sweep := ⟨some t, now, True⟩
  have hvalid : (cronSpec cron owner w).Valid (cronSystem cron owner) := cronSpec_valid hcron
  have hinv : Txn.Pool.Inv (cronSpec cron owner w) s :=
    hs.invariant (hm.inv cron owner w) fun s e s' _ h he hkept =>
      h.step hvalid he (permitted_keepsTick cron owner h.wf hkept.1 hkept.2)
  have hpub := publishes_of_run hinv hstep
    (permitted_keepsTick cron owner hinv.wf hstart hok) rfl hthread
  have hmoves : MovesDue w sch sch' :=
    ⟨by simp [dueWhere, htick.running, htick.due, w], htick.past⟩
  have hstays : sch' ≠ sch := fun heq => absurd (heq ▸ htick.past) (lt_irrefl _)
  -- Only a sweep or a PATCH publishes another cursor.
  cases c with
  | sweep ids rank =>
      obtain ⟨s₁, hs₁, heq | ⟨-, i, e, he, hfired⟩⟩ := hpub.cursors id sch hsch
      · exact absurd ((Option.some.inj (hsch'.symm.trans hs₁)).trans heq) hstays
      · exact ⟨i, e, he, hfired.content trivial⟩
  | request user r =>
      cases r with
      | updateSchedule scheduleId fields =>
          have hchange := hpub id sch sch' hsch hsch' trivial hmoves
          have hkept : changesExpr fields sch = false := htick.kept
          rw [hchange] at hkept
          cases hkept
      | _ => exact absurd (hpub id sch sch' hsch hsch') hstays
  | call c => exact absurd (hpub id sch sch' hsch hsch') hstays

section Example

-- The sweep of transaction 2 fires the tick at 60.
def firingState : CronState :=
  cronStateAfter (fun s e => startsAt 2 200 s e && keepsTick exampleCron 2 200 s e) overdueEvents

-- The step of `t` moves the cursor of schedule 3 past the tick at 60.
def passes (t : TxId) (now : Time) (s s' : CronState) : Bool :=
  match s.thread t, committedSchedule s.mem 3, committedSchedule s'.mem 3 with
  | some ⟨c, _⟩, some sch, some sch' => sch.paused = false ∧ sch.nextRunAt ≤ now ∧
      sch.nextRunAt < sch'.nextRunAt ∧ c.changesExpr sch = false
  | _, _, _ => false

theorem passes_spec (h : passes t now s s' = true) : ∃ c rest sch sch',
    s.thread t = some ⟨c, rest⟩ ∧ committedSchedule s.mem 3 = some sch ∧
      committedSchedule s'.mem 3 = some sch' ∧ TickPassed now c sch sch' := by
  unfold passes at h
  split at h
  · rename_i c rest sch sch' hthread hsch hsch'
    rw [decide_eq_true_eq] at h
    exact ⟨c, rest, sch, sch', hthread, hsch, hsch', h.1, h.2.1, h.2.2.1, h.2.2.2⟩
  · cases h

theorem ticks_fire_overdue :
    ∃ s', (cronSystem exampleCron fun _ => 0).step firingState (.run 2) = some s' ∧
      passes 2 200 firingState s' = true ∧
      ∃ sch i e, committedSchedule firingState.mem 3 = some sch ∧ committedJob s'.mem i = some e ∧
        e.job.content = sch.content exampleCron := by
  have hstep : (((cronSystem exampleCron fun _ => 0).step firingState (.run 2)).map
      (passes 2 200 firingState)) = some true := by
    decide +kernel
  obtain ⟨s', hs', hpasses⟩ := Option.map_eq_some_iff.mp hstep
  obtain ⟨c, rest, sch, sch', hthread, hsch, hsch', htick⟩ := passes_spec hpasses
  have hrun : Reaches (cronSystem exampleCron fun _ => 0).step
      (fun s e _ => startsAt 2 200 s e = true ∧ keepsTick exampleCron 2 200 s e = true)
      (Txn.Pool.init cronDb) firingState :=
    (reaches_cronStateAfter _ overdueEvents).mono fun s e _ h => by
      simpa only [Bool.and_eq_true] using h
  obtain ⟨i, e, he, hcontent⟩ := ticks_fire exampleCron_increases cronDb_initial 2 200 firingState s'
    c rest hrun (by decide +kernel) (by decide +kernel) hs' hthread 3 sch sch' hsch hsch' htick
  exact ⟨s', hs', hpasses, sch, i, e, hsch, he, hcontent⟩

-- The PATCH sends the expression that the schedule has, at 100.
def patchedEvents : List CronEvent :=
  scheduledEvents ++ [.tick 100] ++
    cronWhole 2 (.request exampleUser (.updateSchedule 3 [.cronExpr (some "* * * * *")])) 3

-- A client has submitted a job of its own with the fire key of the tick at 60.
def takenEvents : List CronEvent :=
  scheduledEvents ++ cronWhole 3 (.request exampleUser
      (.createJob { exampleBody (some "schedule:3:60") [] with taskName := "other" } none
        ⟨7, 18, 9⟩)) 8 ++
    [.tick 100] ++ cronWhole 2 (.sweep (fun id => id + 100) id) 6

-- No job of the schedule for the tick is there after the step.
def swallowed (s s' : CronState) : Bool :=
  (committedSchedule s.mem 3).any fun sch =>
    (s'.mem.keys.filterMap Key.jobId).all fun i =>
      (committedJob s'.mem i).all fun e => e.job.content ≠ sch.content exampleCron

theorem not_ticksFire {s s' : CronState}
    (hs : Reaches (cronSystem exampleCron fun _ => 0).step
      (fun s e _ => startsAt 2 100 s e = true) (Txn.Pool.init cronDb) s)
    (hstart : startsAt 2 100 s (.run 2) = true)
    (hstep : (cronSystem exampleCron fun _ => 0).step s (.run 2) = some s')
    (hpasses : passes 2 100 s s' = true) (hlost : swallowed s s' = true) (hwf : s'.mem.WF) :
    ¬ TicksFire exampleCron (fun _ => 0) cronDb fun _ _ _ _ => true := by
  intro hfire
  obtain ⟨c, rest, sch, sch', hthread, hsch, hsch', htick⟩ := passes_spec hpasses
  obtain ⟨i, e, he, hcontent⟩ := hfire 2 100 s s' c rest (hs.mono fun _ _ _ h => ⟨h, rfl⟩) hstart rfl
    hstep hthread 3 sch sch' hsch hsch' htick
  rw [swallowed, hsch, Option.any_some, List.all_eq_true] at hlost
  have hi : i ∈ s'.mem.keys.filterMap Key.jobId :=
    List.mem_filterMap.mpr ⟨_, hwf.mem_of_committed he, rfl⟩
  have hall := hlost i hi
  rw [he, Option.all_some, decide_eq_true_eq] at hall
  exact hall hcontent

theorem cron_state_wf {check : CronState → CronEvent → Bool} (events : List CronEvent)
    (hstep : (cronSystem exampleCron fun _ => 0).step (cronStateAfter check events) (.run t) =
      some s') : s'.mem.WF := by
  have hreach : (cronSystem exampleCron fun _ => 0).Reachable cronDb
      (cronStateAfter check events) :=
    (reaches_cronStateAfter check events).mono fun _ _ _ _ => trivial
  exact Txn.System.wf cronDb_initial.wf (hreach.tail hstep trivial)

-- Both ways to lose a tick.
theorem ticks_swallowed :
    ¬ TicksFire exampleCron (fun _ => 0) cronDb (fun _ _ _ _ => true) ∧
      ([patchedEvents, takenEvents].all fun events =>
        ((cronSystem exampleCron fun _ => 0).step (cronStateAfter (startsAt 2 100) events)
          (.run 2)).any fun s' => passes 2 100 (cronStateAfter (startsAt 2 100) events) s' &&
            swallowed (cronStateAfter (startsAt 2 100) events) s') = true := by
  refine ⟨?_, by decide +kernel⟩
  have hstep : ((cronSystem exampleCron fun _ => 0).step (cronStateAfter (startsAt 2 100)
      patchedEvents) (.run 2)).any (fun s' =>
        passes 2 100 (cronStateAfter (startsAt 2 100) patchedEvents) s' &&
          swallowed (cronStateAfter (startsAt 2 100) patchedEvents) s') = true := by
    decide +kernel
  obtain ⟨s', hs', hboth⟩ := (Option.any_eq_true _ _).mp hstep
  rw [Bool.and_eq_true] at hboth
  exact not_ticksFire (reaches_cronStateAfter (startsAt 2 100) patchedEvents) (by decide +kernel)
    hs' hboth.1 hboth.2 (cron_state_wf patchedEvents hs')

end Example

end Chronos
