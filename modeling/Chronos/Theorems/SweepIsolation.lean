import Chronos.Refinement.Staging
import Chronos.Theorems.CronTicks

namespace Chronos

open Txn (TxId Runs Sees Settled)
open ScheduleRepository (dueWhere dueScan dueLimit lockDue)
open ExecutionService (fireKey firedJob advance flushFiring fireSchedules materializeSchedulesOnce)

variable {cron : CronClock} {t : TxId} {ids : ScheduleId → JobId} {rank : ScheduleId → Nat}
  {v : Snapshot} {now : Time} {m m₀ : Db} {due : List (ScheduleId × Schedule)}

-- The next tick of a schedule the sweep has selected.
def nextTick (cron : CronClock) (now : Time) (s : Schedule) : Option Time :=
  cron.next s.cronExpr (max s.nextRunAt now)

-- What a sweep selects when nothing is locked.
def selected (now : Time) (rank : ScheduleId → Nat) (v : Snapshot) : List (ScheduleId × Schedule) :=
  ((dueScan now rank v).take dueLimit).filterMap fun id => (v.schedule id).map fun s => (id, s)

-- A database whose rows satisfy their constraints, with fresh ids for the jobs of a sweep, and
-- the lock of the scheduler free.
structure SweepReady (ids : ScheduleId → JobId) (now : Time) (rank : ScheduleId → Nat)
    (v : Snapshot) : Prop where
  checks : ∀ id s, v.schedule id = some s → s.checks = true
  id : ∀ id s, v.schedule id = some s → s.id = id
  unique : ∀ i j e e', v.job i = some e → v.job j = some e' → e.SameKey e' → i = j
  fresh : ∀ p ∈ selected now rank v, .job (ids p.1) ∉ v.keys
  distinct : ∀ p ∈ selected now rank v, ∀ q ∈ selected now rank v, ids p.1 = ids q.1 → p.1 = q.1
  lock : v.row (.advisory ExecutionService.SCHEDULER_ADVISORY_LOCK_KEY) = some ()

section Views

theorem schedule_eq_some {id : ScheduleId} {s : Schedule} :
    v.schedule id = some s ↔ v.row (.schedule id) = some (some s) := by
  rw [Snapshot.schedule, Option.join_eq_some_iff]

theorem firedJob_checks {i : JobId} {s : Schedule} (h : s.checks = true) :
    (firedJob cron i s now).checks = true := by
  simp only [Schedule.checks, Job.checks, firedJob] at h ⊢
  exact h

theorem keyed_of_found {ownerId : UserId} {key : String} {job : Job}
    (h : JobRepository.getByIdempotencyKey ownerId key v = some job) : Keyed v ownerId key := by
  rw [JobRepository.getByIdempotencyKey, Option.map_eq_some_iff] at h
  obtain ⟨p, hp, -⟩ := h
  obtain ⟨-, he, hmatch⟩ := mem_jobsWhere.mp (List.mem_of_head? hp)
  rw [decide_eq_true_eq] at hmatch
  exact ⟨p.1, p.2, he, hmatch⟩

theorem not_keyed_of_none (hsees : Sees t v now m) {ownerId : UserId} {key : String}
    (h : JobRepository.getByIdempotencyKey ownerId key v = none) : ¬ Keyed v ownerId key := by
  rintro ⟨i, e, he, hmatch⟩
  have hmem : (i, e) ∈ v.jobsWhere fun e =>
      e.job.ownerId = ownerId ∧ e.job.idempotencyKey = some key :=
    mem_jobsWhere.mpr ⟨hsees.mem_keys he, he, by simpa using hmatch⟩
  rw [JobRepository.getByIdempotencyKey, Option.map_eq_none_iff, List.head?_eq_none_iff] at h
  rw [h] at hmem
  cases hmem

end Views

-- The sweep between two schedules: what it sees, what it has locked, and that nothing is
-- published.
structure Midway (t : TxId) (m₀ : Db) (v : Snapshot) (now : Time)
    (due : List (ScheduleId × Schedule)) (m : Db) : Prop where
  sees : Sees t v now m
  quiet : Txn.Quiet m₀ m
  held : ∀ p ∈ due, m.mine t (.schedule p.1) = some (some p.2)

-- The fire key of a schedule is taken.
def KeyTaken (cron : CronClock) (v : Snapshot) (s : Schedule) : Prop :=
  Keyed v s.ownerId (fireKey cron s.id s.nextRunAt)

-- The job that the firing of a schedule adds, where its fire key is free.
structure FiredAnew (cron : CronClock) (ids : ScheduleId → JobId) (now : Time) (v : Snapshot)
    (p : ScheduleId × Schedule) (i : JobId) (e : JobEntry) : Prop where
  id : i = ids p.1
  job : e.job = firedJob cron (ids p.1) p.2 now
  free : ¬ KeyTaken cron v p.2

-- The rows after the firings of `due`.
structure AllFired (cron : CronClock) (ids : ScheduleId → JobId) (now : Time)
    (due : List (ScheduleId × Schedule)) (v v' : Snapshot) : Prop where
  advanced : ∀ p ∈ due, ∃ n, nextTick cron now p.2 = some n ∧
    v'.row (.schedule p.1) = some (some (advance n p.2))
  jobs : ∀ p ∈ due, KeyTaken cron v' p.2
  others : ∀ id, id ∉ due.map Prod.fst → v'.row (.schedule id) = v.row (.schedule id)
  kept : ∀ i e, v.job i = some e → v'.job i = some e
  added : ∀ i e, v'.job i = some e → v.job i = some e ∨ ∃ p ∈ due, FiredAnew cron ids now v p i e

theorem Keyed.of_kept {v v' : Snapshot} (h : ∀ i e, v.job i = some e → v'.job i = some e)
    {ownerId : UserId} {key : String} (hk : Keyed v ownerId key) : Keyed v' ownerId key := by
  obtain ⟨i, e, he, hmatch⟩ := hk
  exact ⟨i, e, h i e he, hmatch⟩

section Firing

variable {id : ScheduleId} {s : Schedule}

theorem Midway.write {n : Time} (h : Midway t m₀ v now ((id, s) :: due) m)
    (hids : ∀ p ∈ due, p.1 ≠ id) :
    Midway t m₀ (v.put (.schedule id) (some (advance n s))) now due
      (m.own t (.schedule id) (some (advance n s))) := by
  have hrow : v.row (.schedule id) = some (some s) := by
    rw [← h.sees.view]
    exact Txn.seen_of_mine (h.held _ List.mem_cons_self)
  refine ⟨h.sees.own _ hrow, fun k => ?_, fun p hp => ?_⟩
  · rw [Txn.Store.own_committed, h.quiet]
  · rw [Txn.mine_own_ne _ (by simpa using hids p hp)]
    exact h.held p (List.mem_cons_of_mem _ hp)

theorem Midway.insert {i : JobId} {e : JobEntry} (h : Midway t m₀ v now due m)
    (hk : Key.job i ∉ v.keys) : Midway t m₀ (v.with (.job i) e) now due (m.insert t (.job i) e) := by
  refine ⟨h.sees.insert e hk, fun k => ?_, fun p hp => ?_⟩
  · rw [Txn.Store.insert_cell, Txn.Store.own_committed, h.quiet]
  · rw [Txn.mine_insert_ne _ (by simp)]
    exact h.held p hp

-- The jobs once the job of the firing is there, old or new.
structure JobFlushed (cron : CronClock) (ids : ScheduleId → JobId) (now : Time)
    (p : ScheduleId × Schedule) (v v₁ : Snapshot) : Prop where
  taken : KeyTaken cron v₁ p.2
  keys : ∀ k ∈ v₁.keys, k ∈ v.keys ∨ k = .job (ids p.1)
  kept : ∀ j e, v.job j = some e → v₁.job j = some e
  added : ∀ j e, v₁.job j = some e → v.job j = some e ∨ FiredAnew cron ids now v p j e

theorem JobFlushed.put {p : ScheduleId × Schedule} {v₁ : Snapshot}
    (h : JobFlushed cron ids now p v v₁) (id : ScheduleId) (s : Option Schedule) :
    JobFlushed cron ids now p v (v₁.put (.schedule id) s) := by
  have hjob : ∀ j, Snapshot.job (v₁.put (.schedule id) s) j = v₁.job j := fun j =>
    Txn.View.put_row_ne _ _ (by simp)
  refine ⟨?_, h.keys, fun j e he => (hjob j).trans (h.kept j e he), fun j e he => ?_⟩
  · obtain ⟨i, e, he, hmatch⟩ := h.taken
    exact ⟨i, e, (hjob i).trans he, hmatch⟩
  · rw [hjob] at he
    exact h.added j e he

-- Before and after the cursor moves.
def Flushable (cron : CronClock) (ids : ScheduleId → JobId) (t : TxId) (m₀ : Db) (v : Snapshot)
    (now : Time) (id : ScheduleId) (s : Schedule) (due : List (ScheduleId × Schedule)) (m : Db) :
    Prop :=
  ∃ v₁, Midway t m₀ v₁ now ((id, s) :: due) m ∧ JobFlushed cron ids now (id, s) v v₁ ∧
    ∀ id, v₁.row (.schedule id) = v.row (.schedule id)

def FlushedFiring (cron : CronClock) (ids : ScheduleId → JobId) (t : TxId) (m₀ : Db)
    (v : Snapshot) (now : Time) (id : ScheduleId) (s : Schedule) (n : Time)
    (due : List (ScheduleId × Schedule)) (m : Db) : Prop :=
  ∃ v₁, Midway t m₀ v₁ now due m ∧ JobFlushed cron ids now (id, s) v v₁ ∧
    v₁.row (.schedule id) = some (some (advance n s)) ∧
      ∀ id', id' ≠ id → v₁.row (.schedule id') = v.row (.schedule id')

theorem runs_flushFiring {job : Option Job} {n : Time} (hchecks : s.checks = true)
    (hids : ∀ p ∈ due, p.1 ≠ id) (hfresh : Key.job (ids id) ∉ v.keys)
    (hnone : job = none → KeyTaken cron v s)
    (hsome : ∀ x, job = some x → x = firedJob cron (ids id) s now ∧ ¬ KeyTaken cron v s) :
    Runs t (Midway t m₀ v now ((id, s) :: due)) (flushFiring t id job n)
      fun flushed m => flushed = true ∧ FlushedFiring cron ids t m₀ v now id s n due m := by
  have hcursor : ∀ b : Bool, Runs t (fun m => b = true ∧
      Flushable cron ids t m₀ v now id s due m)
      (if b = true then do
        let _ ← writeSchedule id (advance n)
        return true
      else return false)
      fun flushed m => flushed = true ∧ FlushedFiring cron ids t m₀ v now id s n due m := by
    intro b m ⟨hb, v₁, hmid, hjob, hsched⟩
    have hmine := hmid.held _ List.mem_cons_self
    have hp : (m.cell (.schedule id)).pending = some (t, some s) := Txn.mine_eq_some.mp hmine
    refine ⟨true, m.own t (.schedule id) (some (advance n s)), ?_, rfl,
      v₁.put (.schedule id) (some (advance n s)), hmid.write hids, hjob.put _ _,
      Txn.View.put_row_self _ _ _, fun id' hne => ?_⟩
    · rw [if_pos hb]
      simp only [writeSchedule, Txn.Prog.bind_eq, Txn.Prog.run_bind, Txn.Prog.run_stmt, Txn.exec, hp,
        if_true, Option.bind_some, Option.map_some]
      rfl
    · rw [Txn.View.put_row_ne _ _ (by simpa using hne)]
      exact hsched id'
  cases job with
  | none =>
      refine .bind (.pure fun m h => ⟨rfl, v, h, ⟨hnone rfl, fun k hk => .inl hk,
        fun _ _ h => h, fun _ _ h => .inl h⟩, fun _ => rfl⟩) hcursor
  | some x =>
      obtain ⟨rfl, hnot⟩ := hsome x rfl
      unfold flushFiring
      dsimp only
      rw [if_pos (firedJob_checks hchecks)]
      refine .bind (.stmt fun m h => ?_) hcursor
      have hnew : v.job (ids id) = none := by
        by_contra hne
        obtain ⟨e, he⟩ := Option.ne_none_iff_exists'.mp hne
        exact hfresh (h.sees.mem_keys he)
      have hclash : v.clashes (uqJobsOwnerIdempotency (firedJob cron (ids id) s now)) = false := by
        rw [← Bool.not_eq_true, clashes_job h.sees]
        rintro ⟨key, hkey, hkeyed⟩
        obtain rfl := Option.some.inj hkey
        exact hnot hkeyed
      let row : JobEntry :=
        { job := firedJob cron (ids id) s now, attempts := [], dependsOn := [],
          log := [.created t] }
      have hothers : ∀ j, j ≠ ids id → Snapshot.job (v.with (.job (ids id)) row) j = v.job j :=
        fun j hne => with_row_ne v (.job (ids id)) (.job j) row (by simpa using hne)
      refine ⟨true, m.insert t (.job (ids id)) row, ?_, rfl, v.with (.job (ids id)) row,
        h.insert hfresh, ⟨?_, ?_, ?_, ?_⟩, ?_⟩
      · exact (h.sees.exec_insert row _ hfresh).trans (by rw [hclash])
      · exact (keyed_with_job hnew _ _).mpr (.inr ⟨rfl, rfl⟩)
      · intro k hk
        simpa using hk
      · intro j e he
        have hne : j ≠ ids id := by
          rintro rfl
          rw [hnew] at he
          cases he
        exact (hothers j hne).trans he
      · intro j e he
        by_cases hj : j = ids id
        · subst hj
          rw [Snapshot.job, Txn.View.insert_row_self, Option.some.injEq] at he
          exact .inr ⟨rfl, he ▸ rfl, hnot⟩
        · exact .inl ((hothers j hj).symm.trans he)
      · exact fun id' => with_row_ne v (.job (ids id)) (.schedule id') row (by simp)

theorem AllFired.cons {v₁ v' : Snapshot} {n : Time} (h : AllFired cron ids now due v₁ v')
    (hnext : nextTick cron now s = some n) (hids : ∀ p ∈ due, p.1 ≠ id)
    (hjob : JobFlushed cron ids now (id, s) v v₁)
    (hrow : v₁.row (.schedule id) = some (some (advance n s)))
    (hframe : ∀ id', id' ≠ id → v₁.row (.schedule id') = v.row (.schedule id')) :
    AllFired cron ids now ((id, s) :: due) v v' := by
  have hid : id ∉ due.map Prod.fst := fun hmem => by
    obtain ⟨p, hp, heq⟩ := List.mem_map.mp hmem
    exact hids p hp heq
  refine ⟨fun p hp => ?_, fun p hp => ?_, fun id' hid' => ?_, fun i e he => ?_, fun i e he => ?_⟩
  · rcases List.mem_cons.mp hp with rfl | hp
    · exact ⟨n, hnext, (h.others id hid).trans hrow⟩
    · exact h.advanced p hp
  · rcases List.mem_cons.mp hp with rfl | hp
    · exact Keyed.of_kept h.kept hjob.taken
    · exact h.jobs p hp
  · simp only [List.map_cons, List.mem_cons, not_or] at hid'
    exact (h.others id' hid'.2).trans (hframe id' hid'.1)
  · exact h.kept i e (hjob.kept i e he)
  · rcases h.added i e he with he | ⟨p, hp, hnew⟩
    · exact (hjob.added i e he).imp_right fun hnew => ⟨(id, s), List.mem_cons_self, hnew⟩
    · exact .inr ⟨p, List.mem_cons_of_mem _ hp, hnew.id, hnew.job,
        fun htaken => hnew.free (Keyed.of_kept hjob.kept htaken)⟩

-- Alone, the loop over the due schedules comes to its end unless one of them has no next tick.
theorem runs_fireSchedules (hchecks : ∀ p ∈ due, p.2.checks = true)
    (hnodup : (due.map Prod.fst).Nodup) (hfresh : ∀ p ∈ due, Key.job (ids p.1) ∉ v.keys)
    (hdistinct : ∀ p ∈ due, ∀ q ∈ due, ids p.1 = ids q.1 → p.1 = q.1) :
    Runs t (Midway t m₀ v now due) (fireSchedules cron t ids now due) fun r m =>
      Txn.Quiet m₀ m ∧
        ((∃ k v', r = .ok k ∧ Sees t v' now m ∧ AllFired cron ids now due v v') ∨
          ∃ err, r = .error err ∧ ∃ p ∈ due, nextTick cron now p.2 = none) := by
  induction due generalizing v with
  | nil => exact .pure fun m h => ⟨h.quiet, .inl ⟨0, v, rfl, h.sees, by simp, by simp,
      fun _ _ => rfl, fun _ _ h => h, fun _ _ h => .inl h⟩⟩
  | cons p due ih =>
      obtain ⟨id, s⟩ := p
      rw [List.map_cons, List.nodup_cons] at hnodup
      have hids : ∀ p ∈ due, p.1 ≠ id := fun p hp heq =>
        hnodup.1 (List.mem_map.mpr ⟨p, hp, heq⟩)
      have hself := hfresh (id, s) List.mem_cons_self
      refine .bind (Q := fun existing m => (existing = JobRepository.getByIdempotencyKey s.ownerId
        (fireKey cron s.id s.nextRunAt) v) ∧ Midway t m₀ v now ((id, s) :: due) m)
        (.stmt fun m h => ⟨_, m, by simp only [Txn.exec, h.sees.view], rfl, h⟩) fun existing => ?_
      refine .given fun hexisting => ?_
      dsimp only
      split
      · rename_i hnone
        exact .pure fun m h => ⟨h.quiet, .inr ⟨_, rfl, (id, s), List.mem_cons_self, hnone⟩⟩
      · rename_i n hn
        refine .assuming (φ := existing = none → ¬ KeyTaken cron v s)
          (fun m h hnone => not_keyed_of_none h.sees (hexisting ▸ hnone)) fun hnot => ?_
        refine .bind (Q := fun flushed m => flushed = true ∧
          FlushedFiring cron ids t m₀ v now id s n due m)
          (runs_flushFiring (hchecks _ List.mem_cons_self) hids hself ?_ ?_) fun flushed => ?_
        · intro hnone
          split at hnone
          · rename_i hsome
            obtain ⟨job, hjob⟩ := Option.isSome_iff_exists.mp hsome
            exact keyed_of_found (hexisting ▸ hjob)
          · cases hnone
        · intro x hx
          split at hx
          · cases hx
          · rename_i hnone
            rw [Bool.not_eq_true, Option.isSome_eq_false_iff, Option.isNone_iff_eq_none] at hnone
            exact ⟨(Option.some.inj hx).symm, hnot hnone⟩
        · refine .given fun hflushed => ?_
          rw [if_pos hflushed]
          refine .exists fun v₁ => ?_
          rintro m ⟨hmid, hjob, hrow, hframe⟩
          have hfresh' : ∀ p ∈ due, Key.job (ids p.1) ∉ v₁.keys := by
            intro p hp hmem
            rcases hjob.keys _ hmem with hmem | heq
            · exact hfresh p (List.mem_cons_of_mem _ hp) hmem
            · have hsame : ids p.1 = ids id := by simpa using heq
              exact hids p hp
                (hdistinct p (List.mem_cons_of_mem _ hp) (id, s) List.mem_cons_self hsame)
          have hrest := ih (fun p hp => hchecks p (List.mem_cons_of_mem _ hp)) hnodup.2 hfresh'
            fun p hp q hq => hdistinct p (List.mem_cons_of_mem _ hp) q (List.mem_cons_of_mem _ hq)
          refine Runs.bind hrest (fun r => ?_) m hmid
          cases r with
          | error err =>
              refine .pure fun m h => ⟨h.1, .inr ⟨err, rfl, ?_⟩⟩
              rcases h.2 with ⟨k, v', hr, -⟩ | ⟨err', hr, p, hp, hnone⟩
              · cases hr
              · exact ⟨p, List.mem_cons_of_mem _ hp, hnone⟩
          | ok created =>
              refine .pure fun m h => ⟨h.1, .inl ?_⟩
              rcases h.2 with ⟨k, v', hr, hsees, hfired⟩ | ⟨err', hr, -⟩
              · exact ⟨_, v', rfl, hsees, hfired.cons hn hids hjob hrow hframe⟩
              · cases hr

end Firing

section Lock

variable {id : ScheduleId} {s : Schedule} {done : List (ScheduleId × Schedule)}

theorem Midway.lock (h : Midway t m₀ v now done m) (hs : v.schedule id = some s) :
    Midway t m₀ v now (done ++ [(id, s)]) (m.own t (.schedule id) (some s)) := by
  have hrow := schedule_eq_some.mp hs
  have hsees := h.sees.own (some s) hrow
  rw [Txn.View.put_eq_self hrow] at hsees
  refine ⟨hsees, fun k => ?_, fun p hp => ?_⟩
  · rw [Txn.Store.own_committed, h.quiet]
  · by_cases heq : p.1 = id
    · have hsame : p.2 = s := by
        rcases List.mem_append.mp hp with hp | hp
        · have hseen : v.row (.schedule p.1) = some (some p.2) := by
            rw [← h.sees.view]
            exact Txn.seen_of_mine (h.held p hp)
          rw [heq, hrow] at hseen
          exact (Option.some.inj (Option.some.inj hseen)).symm
        · rw [List.mem_singleton.mp hp]
      rw [heq, hsame]
      exact Txn.mine_own_self (V := Row) (k := Key.schedule id) _
    · have hmem : p ∈ done := by
        rcases List.mem_append.mp hp with hp | hp
        · exact hp
        · exact absurd (by rw [List.mem_singleton.mp hp]) heq
      rw [Txn.mine_own_ne _ (by simpa using heq)]
      exact h.held p hmem

theorem runs_lockSchedule (hs : v.schedule id = some s) (hdue : dueWhere now s = true) :
    Runs t (Midway t m₀ v now done) (lockSchedule id (dueWhere now)) fun r m =>
      r = some s ∧ Midway t m₀ v now (done ++ [(id, s)]) m := by
  refine .bind (Q := fun row m => row = some (some s) ∧ Midway t m₀ v now (done ++ [(id, s)]) m)
    (.stmt fun m h => ⟨some (some s), m.own t (.schedule id) (some s), ?_, rfl, h.lock hs⟩)
    fun row => .pure fun m h => ⟨by rw [h.1]; rfl, h.2⟩
  rw [h.sees.exec_lock (schedule_eq_some.mp hs), if_pos (by simpa using hdue)]

-- Alone, the sweep locks the first schedules of its scan.
theorem runs_lockDue (n : Nat) (todo : List ScheduleId) (done : List (ScheduleId × Schedule))
    (hdue : ∀ id ∈ todo, ∃ s, v.schedule id = some s ∧ dueWhere now s = true) :
    Runs t (Midway t m₀ v now done) (lockDue now n todo) fun ps m =>
      ps = (todo.take n).filterMap (fun id => (v.schedule id).map fun s => (id, s)) ∧
        Midway t m₀ v now (done ++ ps) m := by
  have hend : ∀ done, Runs t (Midway t m₀ v now done) (pure []) fun ps m =>
      ps = [] ∧ Midway t m₀ v now (done ++ ps) m :=
    fun done => .pure fun m h => ⟨rfl, by rwa [List.append_nil]⟩
  induction todo generalizing n done with
  | nil =>
      cases n with
      | zero =>
          rw [lockDue]
          exact hend done
      | succ n =>
          rw [lockDue]
          · exact hend done
          · exact Nat.succ_ne_zero n
  | cons id todo ih =>
      obtain ⟨s, hs, hwhere⟩ := hdue id List.mem_cons_self
      cases n with
      | zero =>
          rw [lockDue]
          exact hend done
      | succ n =>
          rw [lockDue]
          refine .bind (runs_lockSchedule hs hwhere) fun row => .given ?_
          rintro rfl
          refine .bind (ih n (done ++ [(id, s)]) fun id hid => hdue id (List.mem_cons_of_mem _ hid))
            fun ps => .given ?_
          rintro rfl
          refine .pure fun m h => ⟨?_, by simpa using h⟩
          simp [hs]

theorem dueScan_due {rank : ScheduleId → Nat} (hid : id ∈ dueScan now rank v) :
    ∃ s, v.schedule id = some s ∧ dueWhere now s = true := by
  obtain ⟨p, hp, rfl⟩ := List.mem_map.mp hid
  obtain ⟨i, -, hrow⟩ := List.mem_filterMap.mp ((List.perm_insertionSort _ _).mem_iff.mp hp)
  obtain ⟨s, hs, hif⟩ := Option.bind_eq_some_iff.mp hrow
  split at hif
  · rename_i hdue
    obtain rfl := Option.some.inj hif
    exact ⟨s, hs, hdue⟩
  · cases hif

theorem mem_selected {rank : ScheduleId → Nat} {p : ScheduleId × Schedule}
    (hp : p ∈ selected now rank v) : v.schedule p.1 = some p.2 := by
  obtain ⟨id, -, hrow⟩ := List.mem_filterMap.mp hp
  obtain ⟨s, hs, rfl⟩ := Option.map_eq_some_iff.mp hrow
  exact hs

theorem nodup_selected {rank : ScheduleId → Nat} (h : v.keys.Nodup) :
    ((selected now rank v).map Prod.fst).Nodup := by
  refine nodup_keyed ((List.take_sublist _ _).nodup (nodup_dueScan h now rank)) fun id p hp => ?_
  obtain ⟨s, -, rfl⟩ := Option.map_eq_some_iff.mp hp
  rfl

end Lock

section Sweep

-- What the claim of isolation asks of a sweep: it is not rolled back by an exception, and every
-- schedule it has selected and that has a next tick is fired and advanced. The job of a schedule
-- has the schedule's content; the sweep makes it, unless an earlier one has.
structure Isolated (cron : CronClock) (ids : ScheduleId → JobId) (now : Time) (v : Snapshot)
    (due : List (ScheduleId × Schedule)) (r : Except PyError Nat) (m : Db) : Prop where
  returns : ∃ n, r = .ok n
  jobs : ∀ p ∈ due, nextTick cron now p.2 ≠ none →
    ∃ i e, committedJob m i = some e ∧ e.job.content = p.2.content cron ∧
      (v.job i = some e ∨ i = ids p.1 ∧ e.job = firedJob cron i p.2 now)
  advanced : ∀ p ∈ due, ∀ n, nextTick cron now p.2 = some n →
    committedSchedule m p.1 = some (advance n p.2)

-- The two ends of a sweep: what `v'` shows is committed, or nothing is.
structure SweepDone (cron : CronClock) (ids : ScheduleId → JobId) (now : Time)
    (due : List (ScheduleId × Schedule)) (v : Snapshot) (r : Except PyError Nat) (m : Db) :
    Prop where
  returns : ∃ n, r = .ok n
  fired : ∃ v' : Snapshot, (∀ k, (m.cell k).committed = v'.row k) ∧ AllFired cron ids now due v v'

structure SweepFailed (cron : CronClock) (now : Time) (due : List (ScheduleId × Schedule))
    (m₀ : Db) (r : Except PyError Nat) (m : Db) : Prop where
  raises : ∃ err, r = .error err
  quiet : Txn.Quiet m₀ m
  stuck : ∃ p ∈ due, nextTick cron now p.2 = none

theorem runs_exit {α : Type} {P : Db → Prop} {Q : α → Db → Prop} {a : α}
    (h : ∀ m, P m → Q a (m.rollback t)) :
    Runs t P (do
      ExecutionService.exit
      return a) Q :=
  .bind (Q := fun _ m => Q a m) (.stmt fun m hP => ⟨(), m.rollback t, rfl, h m hP⟩)
    fun _ => .pure fun _ hQ => hQ

theorem runs_materializeSchedulesOnce (hm : Settled v now m₀) (hready : SweepReady ids now rank v) :
    Runs t (fun m => m = m₀) (materializeSchedulesOnce cron t ids rank) fun r m =>
      SweepDone cron ids now (selected now rank v) v r m ∨
        SweepFailed cron now (selected now rank v) m₀ r m := by
  have hstart : ∀ m, m = m₀ → Midway t m₀ v now [] m := by
    rintro m rfl
    exact ⟨hm.sees t, Txn.quiet_refl m, by simp⟩
  refine .bind (Q := fun r m => r = now ∧ Midway t m₀ v now [] m)
    (.stmt fun m h => ⟨now, m, by simp only [Txn.exec, (hstart m h).sees.clock], rfl, hstart m h⟩)
    fun start => .given ?_
  rintro rfl
  refine .bind (Q := fun got m => got = some () ∧ Midway t m₀ v start [] m) (.stmt fun m h =>
    ⟨some (), m.own t (.advisory ExecutionService.SCHEDULER_ADVISORY_LOCK_KEY) (), ?_, rfl, ?_⟩)
    fun got => .given ?_
  · rw [h.sees.exec_lock hready.lock, if_pos rfl]
  · have hsees := h.sees.own () hready.lock
    rw [Txn.View.put_eq_self hready.lock] at hsees
    exact ⟨hsees, fun k => by rw [Txn.Store.own_committed, h.quiet], by simp⟩
  rintro rfl
  refine .bind (Q := fun scan m => scan = dueScan start rank v ∧ Midway t m₀ v start [] m)
    (.stmt fun m h => ⟨_, m, by simp only [Txn.exec, h.sees.view], rfl, h⟩) fun scan => .given ?_
  rintro rfl
  refine .bind (runs_lockDue dueLimit _ [] fun id hid => dueScan_due hid) fun due => .given ?_
  intro hdue
  have hselected : due = selected start rank v := hdue
  split
  · rename_i hempty
    refine runs_exit fun m h => .inl ⟨⟨0, rfl⟩, v, fun k => ?_, ?_⟩
    · rw [Txn.Store.rollback_committed, h.quiet, hm.committed]
    · rw [← hselected, hempty]
      exact ⟨by simp, by simp, fun _ _ => rfl, fun _ _ h => h, fun _ _ h => .inl h⟩
  · refine .bind ((runs_fireSchedules ?_ ?_ ?_ ?_).pre fun m h => by simpa using h) fun r => ?_
    · exact fun p hp => hready.checks p.1 p.2 (mem_selected (hselected ▸ hp))
    · exact hselected ▸ nodup_selected (hm.keys ▸ hm.wf.nodup)
    · exact hselected ▸ hready.fresh
    · exact hselected ▸ hready.distinct
    · cases r with
      | error err =>
          refine runs_exit fun m h => .inr ⟨⟨err, rfl⟩, fun k => ?_, ?_⟩
          · rw [Txn.Store.rollback_committed, h.1]
          · rcases h.2 with ⟨k, v', hr, -⟩ | ⟨err', hr, hstuck⟩
            · cases hr
            · exact hselected ▸ hstuck
      | ok created =>
          refine .bind (Q := fun _ m => ∃ v' : Snapshot, (∀ k, (m.cell k).committed = v'.row k) ∧
            AllFired cron ids start due v v') (.stmt fun m h => ⟨(), m.commit t, rfl, ?_⟩) fun _ => ?_
          · rcases h.2 with ⟨k, v', hr, hsees, hfired⟩ | ⟨err, hr, -⟩
            · exact ⟨v', hsees.commit.committed, hfired⟩
            · cases hr
          · refine runs_exit fun m h => ?_
            obtain ⟨v', hcommitted, hfired⟩ := h
            refine .inl ⟨⟨_, rfl⟩, v', fun k => ?_, ?_⟩
            · rw [Txn.Store.rollback_committed, hcommitted]
            · exact hselected ▸ hfired

-- The jobs that hold the fire key of a schedule are its own.
def OwnKey (cron : CronClock) (v : Snapshot) (s : Schedule) : Prop :=
  ∀ i e, v.job i = some e → e.job.ownerId = s.ownerId →
    e.job.idempotencyKey = some (fireKey cron s.id s.nextRunAt) → e.job.content = s.content cron

variable {v' : Snapshot}

-- Whoever holds the fire key of a fired schedule after the sweep was there before, or is its job.
theorem AllFired.holder (h : AllFired cron ids now due v v')
    (hsame : ∀ p ∈ due, ∀ q ∈ due, p.2.id = q.2.id → p = q) {p : ScheduleId × Schedule}
    (hp : p ∈ due) {i : JobId} {e : JobEntry} (he : v'.job i = some e)
    (hkey : e.job.idempotencyKey = some (fireKey cron p.2.id p.2.nextRunAt)) :
    v.job i = some e ∨ FiredAnew cron ids now v p i e := by
  refine (h.added i e he).imp_right fun ⟨q, hq, hnew⟩ => ?_
  have hfire : some (fireKey cron q.2.id q.2.nextRunAt) =
      some (fireKey cron p.2.id p.2.nextRunAt) := by
    rw [← hkey, hnew.job]
    rfl
  exact hsame q hq p hp (fireKey_schedule (Option.some.inj hfire)) ▸ hnew

theorem AllFired.job_iff (h : AllFired cron ids now due v v')
    (hunique : ∀ i j e e', v.job i = some e → v.job j = some e' → e.SameKey e' → i = j)
    (hsame : ∀ p ∈ due, ∀ q ∈ due, p.2.id = q.2.id → p = q) {p : ScheduleId × Schedule}
    (hp : p ∈ due) : (∃ i e, v'.job i = some e ∧ e.job.content = p.2.content cron ∧
      (v.job i = some e ∨ i = ids p.1 ∧ e.job = firedJob cron i p.2 now)) ↔ OwnKey cron v p.2 := by
  constructor
  · rintro ⟨i, e, he, hcontent, -⟩ j d hd howner hkey
    have hekey : e.job.idempotencyKey = some (fireKey cron p.2.id p.2.nextRunAt) :=
      congrArg JobContent.idempotencyKey hcontent
    rcases h.holder hsame hp he hekey with hold | hnew
    · have heowner : e.job.ownerId = p.2.ownerId := congrArg JobContent.ownerId hcontent
      obtain rfl : i = j := hunique i j e d hold hd
        ⟨heowner.trans howner.symm, hekey.trans hkey.symm, by rw [hekey]; rfl⟩
      rw [hold, Option.some.injEq] at hd
      exact hd ▸ hcontent
    · exact absurd ⟨j, d, hd, howner, hkey⟩ hnew.free
  · intro hown
    obtain ⟨i, e, he, howner, hkey⟩ := h.jobs p hp
    rcases h.holder hsame hp he hkey with hold | hnew
    · exact ⟨i, e, he, hown i e hold howner hkey, .inl hold⟩
    · obtain ⟨rfl, hjob, -⟩ := hnew
      exact ⟨_, e, he, hjob ▸ firedJob_content _ _ _ _, .inr ⟨rfl, hjob⟩⟩

-- A sweep isolates its schedules when every one it selects has a next tick, and no job of another
-- content holds a fire key of theirs; without a next tick it raises, and nothing of it is committed.
theorem sweep_isolates (hm : Settled v now m) (hready : SweepReady ids now rank v) :
    ∃ r m', (materializeSchedulesOnce cron t ids rank).run t m = some (r, m') ∧
      (Isolated cron ids now v (selected now rank v) r m' ↔
        ∀ p ∈ selected now rank v, nextTick cron now p.2 ≠ none ∧ OwnKey cron v p.2) ∧
      ((∃ err, r = .error err) → ∀ k, (m'.cell k).committed = (m.cell k).committed) := by
  have hsame : ∀ p ∈ selected now rank v, ∀ q ∈ selected now rank v, p.2.id = q.2.id → p = q := by
    intro p hp q hq heq
    have hpv := mem_selected hp
    have hqv := mem_selected hq
    have hid : p.1 = q.1 :=
      (hready.id _ _ hpv).symm.trans (heq.trans (hready.id _ _ hqv))
    rw [hid, hqv, Option.some.injEq] at hpv
    exact Prod.ext hid hpv.symm
  have hruns : Runs t (fun m' => m' = m) (materializeSchedulesOnce cron t ids rank) fun r m' =>
      SweepDone cron ids now (selected now rank v) v r m' ∨
        SweepFailed cron now (selected now rank v) m r m' := runs_materializeSchedulesOnce hm hready
  obtain ⟨r, m', hrun, hdone | hfailed⟩ := hruns m rfl
  · obtain ⟨v', hcommitted, hfired⟩ := hdone.fired
    have hjobs {p : ScheduleId × Schedule} (hp : p ∈ selected now rank v) :=
      hfired.job_iff hready.unique hsame hp
    have hview : ∀ i, committedJob m' i = v'.job i := fun i => hcommitted (.job i)
    refine ⟨r, m', hrun, ⟨fun h p hp => ?_, fun h => ⟨hdone.returns, fun p hp _ => ?_,
      fun p hp n hn => ?_⟩⟩, ?_⟩
    · obtain ⟨n, hn, -⟩ := hfired.advanced p hp
      have hnext : nextTick cron now p.2 ≠ none := by
        rw [hn]
        exact Option.some_ne_none n
      refine ⟨hnext, (hjobs hp).mp ?_⟩
      obtain ⟨i, e, he, hjob⟩ := h.jobs p hp hnext
      exact ⟨i, e, (hview i).symm.trans he, hjob⟩
    · obtain ⟨i, e, he, hjob⟩ := (hjobs hp).mpr (h p hp).2
      exact ⟨i, e, (hview i).trans he, hjob⟩
    · obtain ⟨n', hn', hrow⟩ := hfired.advanced p hp
      rw [hn, Option.some.injEq] at hn'
      rw [committedSchedule, hcommitted, hrow, hn']
      rfl
    · obtain ⟨n, rfl⟩ := hdone.returns
      rintro ⟨err, herr⟩
      cases herr
  · refine ⟨r, m', hrun, ⟨fun h => ?_, fun h => ?_⟩, fun _ => hfailed.quiet⟩
    · obtain ⟨n, hn⟩ := h.returns
      obtain ⟨err, rfl⟩ := hfailed.raises
      cases hn
    · obtain ⟨p, hp, hnone⟩ := hfailed.stuck
      exact absurd hnone (h p hp).1

end Sweep

section Example

-- An expression with a year in it, whose last instant is 60.
def lastExpr : String := "1 0 1 1 * 0 1970"

def endingCron : CronClock where
  next expr t := if expr = lastExpr ∧ 60 ≤ t then none else exampleCron.next expr t
  isoformat := exampleCron.isoformat

def storedSchedule (id : ScheduleId) (expr : String) (nextRunAt : Time) : Schedule :=
  { ScheduleService.build id 0 (Queue.fresh 8 0 "default") exampleSchedule nextRunAt 0 with
    cronExpr := expr }

-- Schedules 3 and 4 are both due at 100.
def twoDueDb (expr : String) : Db where
  keys := [.schedule 3, .schedule 4, .advisory ExecutionService.SCHEDULER_ADVISORY_LOCK_KEY]
  cell
    | .schedule id =>
        if id = 3 then ⟨some (some (storedSchedule 3 expr 60)), none⟩
        else if id = 4 then ⟨some (some (storedSchedule 4 "* * * * *" 60)), none⟩ else .empty
    | .advisory key => if key = ExecutionService.SCHEDULER_ADVISORY_LOCK_KEY then ⟨some (), none⟩
        else .empty
    | _ => .empty
  clock := 100
  opened := []

theorem twoDueDb_settled (expr : String) :
    Settled (committedView (twoDueDb expr)) 100 (twoDueDb expr) := by
  refine settled_committedView ⟨by simp [twoDueDb], fun k hk => ?_⟩ fun k => ?_
  · simp only [twoDueDb, List.mem_cons, List.not_mem_nil, or_false, not_or] at hk
    unfold twoDueDb
    dsimp only
    split
    · rename_i id
      rw [if_neg fun h => hk.1 (by rw [h]), if_neg fun h => hk.2.1 (by rw [h])]
    · rename_i key
      rw [if_neg fun h => hk.2.2 (by rw [h])]
    · rfl
  · unfold twoDueDb
    dsimp only
    split
    · split
      · rfl
      · split <;> rfl
    · split <;> rfl
    · rfl

theorem twoDueDb_schedule {expr : String} {id : ScheduleId} {s : Schedule}
    (h : (committedView (twoDueDb expr)).schedule id = some s) :
    (id = 3 ∧ s = storedSchedule 3 expr 60) ∨ (id = 4 ∧ s = storedSchedule 4 "* * * * *" 60) := by
  simp only [Snapshot.schedule, committedView, twoDueDb] at h
  split at h
  · exact .inl ⟨‹_›, (Option.some.inj h).symm⟩
  · split at h
    · exact .inr ⟨‹_›, (Option.some.inj h).symm⟩
    · cases h

theorem twoDueDb_ready (expr : String) : SweepReady (fun id => id + 100) 100 id
    (committedView (twoDueDb expr)) where
  checks id s h := by
    rcases twoDueDb_schedule h with ⟨-, rfl⟩ | ⟨-, rfl⟩
    · rfl
    · rfl
  id id s h := by
    rcases twoDueDb_schedule h with ⟨rfl, rfl⟩ | ⟨rfl, rfl⟩
    · rfl
    · rfl
  unique i j e e' h := nomatch h
  fresh p _ := by simp [committedView, twoDueDb]
  distinct p _ q _ h := Nat.add_right_cancel h
  lock := rfl

-- Both schedules are fired.
theorem sweep_isolates_healthy : ∃ r m',
    (materializeSchedulesOnce endingCron 1 (fun id => id + 100) id).run 1
        (twoDueDb "* * * * *") = some (r, m') ∧
      Isolated endingCron (fun id => id + 100) 100 (committedView (twoDueDb "* * * * *"))
        (selected 100 id (committedView (twoDueDb "* * * * *"))) r m' := by
  obtain ⟨r, m', hrun, hiff, -⟩ : ∃ r m', (materializeSchedulesOnce endingCron 1
      (fun id => id + 100) id).run 1 (twoDueDb "* * * * *") = some (r, m') ∧ _ ∧ _ :=
    sweep_isolates (twoDueDb_settled "* * * * *") (twoDueDb_ready "* * * * *")
  refine ⟨r, m', hrun, hiff.mpr fun p hp => ⟨?_, fun i e he => nomatch he⟩⟩
  rcases twoDueDb_schedule (mem_selected hp) with ⟨-, hs⟩ | ⟨-, hs⟩
  · rw [hs]
    decide +kernel
  · rw [hs]
    decide +kernel

def SweepsIsolate (cron : CronClock) : Prop :=
  ∀ t ids rank v now m r m', Settled v now m → SweepReady ids now rank v →
    (materializeSchedulesOnce cron t ids rank).run t m = some (r, m') →
      Isolated cron ids now v (selected now rank v) r m'

-- Two sweeps, the second of them 900 seconds later: what they raise, and the cursor of schedule 4.
def stuckSweeps : Option (Except PyError Nat × Except PyError Nat × Option Time) := do
  let (r, m) ← (materializeSchedulesOnce endingCron 1 (fun id => id + 100) id).run 1
    (twoDueDb lastExpr)
  let (r', m') ← (materializeSchedulesOnce endingCron 2 (fun id => id + 200) id).run 2
    { m with clock := 1000 }
  return (r, r', (committedSchedule m' 4).map Schedule.nextRunAt)

-- The owner of schedule 4 has cancelled a job of his own, which he gave the fire key of its tick.
def squattedDb : Db :=
  let key := fireKey endingCron 4 60
  let job := { JobService.buildJob 9 0 (Queue.fresh 8 0 "default") (exampleBody (some key) []) none 0
    with status := .cancelled }
  let m := twoDueDb "* * * * *"
  { m with
    keys := .job 9 :: m.keys
    cell := fun
      | .job id => if id = 9 then ⟨some ⟨job, [], [], []⟩, none⟩ else .empty
      | k => m.cell k }

-- A sweep: what it returns, the cursor of schedule 4, and the tasks of the jobs it has made.
def squattedSweep : Option (Except PyError Nat × Option Time × List (Option String)) := do
  let (r, m) ← (materializeSchedulesOnce endingCron 1 (fun id => id + 100) id).run 1 squattedDb
  return (r, (committedSchedule m 4).map Schedule.nextRunAt,
    [103, 104].map fun id => (committedJob m id).map fun e => e.job.taskName)

theorem sweeps_stuck : ¬ SweepsIsolate endingCron ∧
    stuckSweeps = some (.error .croniterBadDate, .error .croniterBadDate, some 60) ∧
    squattedSweep = some (.ok 1, some 120, [some "report", none]) := by
  refine ⟨fun h => ?_, by decide +kernel, by decide +kernel⟩
  have hraises : ((materializeSchedulesOnce endingCron 1 (fun id => id + 100) id).run 1
      (twoDueDb lastExpr)).any (fun r => !r.1.isOk) = true := by
    decide +kernel
  obtain ⟨⟨r, m'⟩, hrun, hr⟩ := (Option.any_eq_true _ _).mp hraises
  obtain ⟨n, rfl⟩ := (h 1 _ _ _ _ _ r m' (twoDueDb_settled _) (twoDueDb_ready _) hrun).returns
  cases hr

end Example

end Chronos
