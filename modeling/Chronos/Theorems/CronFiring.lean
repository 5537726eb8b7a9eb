import Chronos.Cron.Runs

namespace Chronos

open Txn (TxId Reaches)
open ScheduleRepository (dueWhere)
open ExecutionService (fireKey)

variable {cron : CronClock} {owner : ScheduleId → UserId} {t : TxId} {now : Time} {m m' : Db}
  {s s' : CronState}

-- A job of the schedule, for the tick at `at_`.
def FiresAt (cron : CronClock) (owner : ScheduleId → UserId) (id : ScheduleId) (at_ : Time)
    (e : JobEntry) : Prop :=
  e.job.ownerId = owner id ∧ e.job.idempotencyKey = some (fireKey cron id at_)

-- A schedule a sweep at `now` has processed: it was due, its tick is the one that was due, and
-- it is not due any more.
structure Processed (now : Time) (s s' : Schedule) : Prop where
  due : dueWhere now s = true
  last : s'.lastRunAt = some s.nextRunAt ∧ s.nextRunAt ≤ now
  next : now < s'.nextRunAt
  idle : dueWhere now s' = false

-- A job that is there after a step and was not before.
def NewJob (m m' : Db) (i : JobId) (e : JobEntry) : Prop :=
  committedJob m i = none ∧ committedJob m' i = some e

-- What one statement of a sweep at `now` commits.
structure SweepCommits (cron : CronClock) (owner : ScheduleId → UserId) (now : Time)
    (m m' : Db) : Prop where
  schedules : ∀ id s, committedSchedule m id = some s →
    ∃ s', committedSchedule m' id = some s' ∧ (s' = s ∨ Processed now s s')
  jobs : ∀ i e, NewJob m m' i e → ∃ id s s', committedSchedule m id = some s ∧
    committedSchedule m' id = some s' ∧ Processed now s s' ∧ FiresAt cron owner id s.nextRunAt e
  once : ∀ id i j a b e e', NewJob m m' i e → NewJob m m' j e' → FiresAt cron owner id a e →
    FiresAt cron owner id b e' → i = j

def CronCall.isSweep : CronCall → Bool
  | .sweep .. => true
  | _ => false

section Key

theorem colon_not_mem (n : Nat) : ∀ c ∈ Nat.toDigits 10 n, (c != ':') = true := by
  intro c hc
  have hdigit := Nat.isDigit_of_mem_toDigits (by decide) (by decide) hc
  by_contra hne
  rw [bne_iff_ne, not_not] at hne
  rw [hne] at hdigit
  exact absurd hdigit (by decide)

-- The fire key names its schedule.
theorem fireKey_schedule {i j : ScheduleId} {a b : Time}
    (h : fireKey cron i a = fireKey cron j b) : i = j := by
  have hlist := congrArg String.toList h
  simp only [fireKey, String.toList_append, Nat.toString_eq_repr, Nat.toList_repr,
    List.append_assoc, List.append_cancel_left_eq] at hlist
  have htake := congrArg (List.takeWhile (· != ':')) hlist
  have hcolon : ":".toList = [':'] := rfl
  rw [List.takeWhile_append_of_pos (colon_not_mem i), List.takeWhile_append_of_pos (colon_not_mem j),
    hcolon] at htake
  simp only [List.cons_append, List.takeWhile_cons, bne_self_eq_false, Bool.false_eq_true,
    if_false, List.append_nil] at htake
  rw [← Nat.ofDigitChars_toDigits (b := 10) (n := i) (by decide) (by decide), htake,
    Nat.ofDigitChars_toDigits (by decide) (by decide)]

end Key

theorem Advanced.processed {w : Sweep} {s s' : Schedule} (h : Advanced w s s') :
    Processed w.now s s' := by
  have hdue : s.paused = false ∧ s.nextRunAt ≤ w.now := by
    simpa [dueWhere] using h.due
  refine ⟨h.due, ⟨h.last, hdue.2⟩, h.next, ?_⟩
  simp [dueWhere, not_le.mpr h.next]

theorem schedule_of_committed {w : Sweep}
    (h : Txn.Pool.Inv (cronSpec cron owner w) s) {id : ScheduleId} {sch : Schedule}
    (hs : committedSchedule s.mem id = some sch) : sch.id = id ∧ sch.ownerId = owner id := by
  rw [committedSchedule, Option.join_eq_some_iff] at hs
  exact h.inv.schedules id sch (.inl hs)

theorem firing_unique {w : Sweep} (h : Txn.Pool.Inv (cronSpec cron owner w) s)
    {id : ScheduleId} {at_ : Time} {i j : JobId} {e e' : JobEntry}
    (hi : committedJob s.mem i = some e) (hj : committedJob s.mem j = some e')
    (he : FiresAt cron owner id at_ e) (he' : FiresAt cron owner id at_ e') : i = j := by
  refine h.inv.unique i j e e' (.inl hi) (.inl hj) ⟨he.1.trans he'.1.symm, he.2.trans he'.2.symm, ?_⟩
  rw [he.2, Option.isSome_some]

-- A schedule fires at most once for each tick, in runs of sweeps, requests and worker calls in
-- which every sweep may be cut off anywhere; and what a sweep at `now` commits is one job at most
-- for each schedule, whose cursor it moves past `now`.
theorem cron_at_most_once (hcron : cron.Increases) (hm : CronInitial m) :
    (∀ s, (cronSystem cron owner).Reachable m s → ∀ id at_ i j e e', committedJob s.mem i = some e →
      committedJob s.mem j = some e' → FiresAt cron owner id at_ e → FiresAt cron owner id at_ e' →
        i = j) ∧
    ∀ t now s s', Reaches (cronSystem cron owner).step (fun s e _ => startsAt t now s e = true)
        (Txn.Pool.init m) s → startsAt t now s (.run t) = true →
      (cronSystem cron owner).step s (.run t) = some s' →
        (s.thread t).any (fun th => th.call.isSweep) = true →
          SweepCommits cron owner now s.mem s'.mem := by
  constructor
  · intro s hs id at_ i j e e' hi hj he he'
    have hinv := (hm.inv cron owner ⟨none, 0, False⟩).reaches (cronSpec_valid hcron)
      (hs.mono fun s e s' _ => permitted_any cron owner s s' e)
    exact firing_unique hinv hi hj he he'
  · intro t now s s' hs hstart hstep hsweep
    have hrun : Reaches (cronSystem cron owner).step
        (cronSpec cron owner ⟨some t, now, False⟩).Permitted (Txn.Pool.init m) s :=
      hs.mono fun _ _ _ h => permitted_startsAt cron owner h
    have hinv := (hm.inv cron owner ⟨some t, now, False⟩).reaches (cronSpec_valid hcron) hrun
    have hinv' := hinv.step (cronSpec_valid hcron) hstep (permitted_startsAt cron owner hstart)
    obtain ⟨⟨c, rest⟩, hthread, hc⟩ := (Option.any_eq_true _ _).mp hsweep
    cases c with
    | request user r => cases hc
    | call c => cases hc
    | sweep ids rank =>
        have hpub := publishes_of_run hinv hstep (permitted_startsAt cron owner hstart) rfl hthread
        have hjobs : ∀ i e, NewJob s.mem s'.mem i e → ∃ id sch sch',
            committedSchedule s.mem id = some sch ∧ committedSchedule s'.mem id = some sch' ∧
              Processed now sch sch' ∧ FiresAt cron owner id sch.nextRunAt e := by
          intro i e hnew
          obtain ⟨id, sch, sch', hs, hs', hadv, hfired⟩ := hpub.jobs i e hnew.1 hnew.2
          obtain ⟨hid, howner⟩ := schedule_of_committed hinv hs
          refine ⟨id, sch, sch', hs, hs', hadv.processed, hfired.owner.trans howner, ?_⟩
          rw [← hid]
          exact hfired.key
        refine ⟨fun id sch hs => ?_, hjobs, fun id i j a b e e' hi hj he he' => ?_⟩
        · obtain ⟨sch', hs', hrow⟩ := hpub.cursors id sch hs
          exact ⟨sch', hs', hrow.imp (fun h => h) fun h => h.1.processed⟩
        · obtain ⟨id₁, s₁, -, hs₁, -, -, hf₁⟩ := hjobs i e hi
          obtain ⟨id₂, s₂, -, hs₂, -, -, hf₂⟩ := hjobs j e' hj
          obtain rfl : id = id₁ := fireKey_schedule (Option.some.inj (he.2.symm.trans hf₁.2))
          obtain rfl : id = id₂ := fireKey_schedule (Option.some.inj (he'.2.symm.trans hf₂.2))
          obtain rfl : s₁ = s₂ := Option.some.inj (hs₁.symm.trans hs₂)
          exact firing_unique hinv' hi.2 hj.2 hf₁ hf₂

section Example

-- Three ticks were missed when the sweep of transaction 2 is about to commit.
def overdueState : CronState := cronStateAfter (startsAt 2 200) overdueEvents

theorem cron_at_most_once_overdue :
    ∃ s', (cronSystem exampleCron fun _ => 0).step overdueState (.run 2) = some s' ∧
      ((committedSchedule overdueState.mem 3).map Schedule.nextRunAt = some 60 ∧
        (committedSchedule s'.mem 3).map Schedule.nextRunAt = some 240) ∧
      SweepCommits exampleCron (fun _ => 0) 200 overdueState.mem s'.mem := by
  have hstep : (((cronSystem exampleCron fun _ => 0).step overdueState (.run 2)).map fun s' =>
      ((committedSchedule overdueState.mem 3).map Schedule.nextRunAt,
        (committedSchedule s'.mem 3).map Schedule.nextRunAt)) = some (some 60, some 240) := by
    decide +kernel
  obtain ⟨s', hs', hcursors⟩ := Option.map_eq_some_iff.mp hstep
  refine ⟨s', hs', Prod.mk.inj hcursors, ?_⟩
  exact (cron_at_most_once exampleCron_increases cronDb_initial).2 2 200 overdueState s'
    (reaches_cronStateAfter (startsAt 2 200) overdueEvents) (by decide +kernel) hs'
    (by decide +kernel)

end Example

end Chronos
