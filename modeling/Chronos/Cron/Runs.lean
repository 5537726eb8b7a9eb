import Chronos.Cron.Patch

namespace Chronos

open Txn (TxId Reaches runAll)
open ScheduleRepository (dueWhere)
open ExecutionService (fireKey)

-- A database without jobs and schedules that nobody is working on.
structure CronInitial (m : Db) : Prop where
  wf : m.WF
  job : ∀ id, m.cell (.job id) = .empty
  schedule : ∀ id, m.cell (.schedule id) = .empty
  unlocked : ∀ k, (m.cell k).pending = none
  opened : m.opened = []

def begins : {β : Type} → Txn.Stmt Key Row Time β → Bool
  | _, .begin => true
  | _, _ => false

def updatesSchedule : {β : Type} → Txn.Stmt Key Row Time β → Option ScheduleId
  | _, .update (.schedule id) _ _ => some id
  | _, _ => none

def writesSchedule : {β : Type} → Txn.Stmt Key Row Time β → Option ScheduleId
  | _, .write (.schedule id) _ => some id
  | _, _ => none

-- `now` is the now() of transaction `t`: the clock when it begins.
def startsAt (t : TxId) (now : Time) (s : CronState) : CronEvent → Bool
  | .run t' =>
      t' ≠ t || match s.thread t with
        | some ⟨c, some (.op st _)⟩ => !c.movesCursor || !begins st || s.mem.clock = now
        | _ => true
  | _ => true

-- The row of a due schedule that a PATCH finds moves only if the body changes the expression.
def patchKeeps (t : TxId) (now : Time) (m : Db) (id : ScheduleId) (fields : List ScheduleField) :
    Bool :=
  match (m.cell (.schedule id)).seen t with
  | some (some s) => !dueWhere now s || !fields.any ScheduleField.moves || changesExpr fields s
  | _ => true

-- The jobs that hold the fire key of a schedule a sweep advances are its own.
def fireKeyKept (cron : CronClock) (t : TxId) (m : Db) (id : ScheduleId) : Bool :=
  match (m.cell (.schedule id)).pending with
  | some (s, some sch) => s ≠ t || (Snapshot.jobsWhere (m.view t) fun e =>
      e.job.ownerId = sch.ownerId ∧
        e.job.idempotencyKey = some (fireKey cron sch.id sch.nextRunAt)).all fun p =>
        p.2.job.content = sch.content cron
  | _ => true

def keepsTick (cron : CronClock) (t : TxId) (now : Time) (s : CronState) : CronEvent → Bool
  | .run t' =>
      t' ≠ t || match s.thread t with
        | some ⟨.request _ (.updateSchedule _ fields), some (.op st _)⟩ =>
            (updatesSchedule st).all fun id => patchKeeps t now s.mem id fields
        | some ⟨.sweep .., some (.op st _)⟩ =>
            (writesSchedule st).all fun id => fireKeyKept cron t s.mem id
        | _ => true
  | _ => true

variable {cron : CronClock} {owner : ScheduleId → UserId} {t : TxId} {now : Time} {m : Db}
  {s s' : CronState} {e : CronEvent}

theorem CronInitial.inv (h : CronInitial m) (cron : CronClock) (owner : ScheduleId → UserId)
    (w : Sweep) :
    Txn.Pool.Inv (cronSpec cron owner w) (Txn.Pool.init m) := by
  have hversion : ∀ i e, ¬ Version m i e := fun i e => version_eq_of_empty (h.job i)
  refine ⟨h.wf, ⟨fun i j e e' hi => absurd hi (hversion i e), fun i t e e' hc => ?_,
    fun id s hs => ?_⟩, trivial, fun t ht => absurd rfl ht, fun k t v hp => ?_,
      fun t c p ht => nomatch ht⟩
  · exact absurd (.inl hc) (hversion i e)
  · rcases hs with hs | ⟨u, hs⟩
    · rw [Txn.Pool.init, h.schedule] at hs
      cases hs
    · rw [Txn.Pool.init, h.schedule] at hs
      cases hs
  · rw [Txn.Pool.init, h.unlocked] at hp
    cases hp

-- No statement is spoken of: nothing has to be checked.
theorem permitted_any (cron : CronClock) (owner : ScheduleId → UserId) (s s' : CronState)
    (e : CronEvent) : (cronSpec cron owner ⟨none, now, False⟩).Permitted s e s' where
  assume := trivial
  start _ _ _ := trivial
  run t c β st next _ _ := by
    constructor
    · intro h
      cases h
    · exact False.elim
    · exact False.elim

theorem start_of_startsAt (h : startsAt t now s (.run t) = true) {c : CronCall} {β : Type}
    {st : Txn.Stmt Key Row Time β} {next : β → Tx CronValue}
    (ht : s.thread t = some ⟨c, some (.op st next)⟩) (hc : c.movesCursor = true) (hst : Begins st) :
    s.mem.clock = now := by
  cases hst with
  | mk => simpa [startsAt, ht, hc, begins] using h

theorem permitted_startsAt (cron : CronClock) (owner : ScheduleId → UserId)
    (h : startsAt t now s e = true) :
    (cronSpec cron owner ⟨some t, now, False⟩).Permitted s e s' where
  assume := trivial
  start _ _ _ := trivial
  run t' c β st next he ht := by
    refine ⟨fun heq hc hst => ?_, False.elim, False.elim⟩
    obtain rfl : t = t' := Option.some.inj heq
    exact start_of_startsAt (he ▸ h) ht hc hst

theorem mem_jobsWhere_of_seen (hwf : m.WF) {i : JobId} {row : JobEntry} {guard : JobEntry → Bool}
    (hseen : (m.cell (.job i)).seen t = some row) (hg : guard row = true) :
    (i, row) ∈ Snapshot.jobsWhere (m.view t) guard := by
  have hkey : Key.job i ∈ m.keys := hwf.mem_of_seen (t := t) (by rw [hseen]; simp)
  exact mem_jobsWhere.mpr ⟨hkey, hseen, hg⟩

theorem permitted_keepsTick (cron : CronClock) (owner : ScheduleId → UserId) (hwf : s.mem.WF)
    (hstart : startsAt t now s e = true) (h : keepsTick cron t now s e = true) :
    (cronSpec cron owner ⟨some t, now, True⟩).Permitted s e s' where
  assume := trivial
  start _ _ _ := trivial
  run t' c β st next he ht := by
    subst he
    refine ⟨fun heq hc hst => ?_, fun _ heq user scheduleId fields hc id hst sch hseen hdue hmoves => ?_,
      fun _ heq ids rank hc id hst sch hp i row hseen howner hkey => ?_⟩
    · obtain rfl : t = t' := Option.some.inj heq
      exact start_of_startsAt hstart ht hc hst
    · obtain rfl : t = t' := Option.some.inj heq
      subst hc
      cases hst with
      | mk cond set =>
          simpa [keepsTick, ht, updatesSchedule, patchKeeps, hseen, hdue, hmoves] using h
    · obtain rfl : t = t' := Option.some.inj heq
      subst hc
      cases hst with
      | mk set =>
          simp only [keepsTick, ht, writesSchedule, Option.all_some, fireKeyKept, hp, ne_eq,
            not_true_eq_false, decide_false, Bool.false_or] at h
          have hmem : (i, row) ∈ Snapshot.jobsWhere (s.mem.view t) fun e =>
              e.job.ownerId = sch.ownerId ∧
                e.job.idempotencyKey = some (fireKey cron sch.id sch.nextRunAt) :=
            mem_jobsWhere_of_seen hwf hseen (by simp [howner, hkey])
          simpa using List.all_eq_true.mp h _ hmem

-- What a step of `t` does, when it is a statement of a call in progress.
theorem publishes_of_run {w : Sweep} (h : Txn.Pool.Inv (cronSpec cron owner w) s)
    (hstep : (cronSystem cron owner).step s (.run t) = some s')
    (hok : (cronSpec cron owner w).Permitted s (.run t) s') (ht : w.tx = some t) {c : CronCall}
    {rest : Option (Tx CronValue)} (hthread : s.thread t = some ⟨c, rest⟩) :
    CronPublishes cron w s.mem s'.mem c := by
  rcases h.guarantee hstep hok with henv | ⟨t', he, -⟩ | ⟨t', c', p, he, ht', -, hg⟩
  · exact publishes_quiet c fun k => by rw [henv.cell]
  · cases he
  · cases he
    obtain ⟨rfl, -⟩ := Txn.Thread.mk.inj (Option.some.inj (hthread.symm.trans ht'))
    exact hg.publishes ht

section Example

-- One organization with one project, the lock of the scheduler, and no schedule yet.
def cronDb : Db where
  keys := [.project 0, .advisory ExecutionService.SCHEDULER_ADVISORY_LOCK_KEY]
  cell
    | .project 0 => ⟨some { id := 0, orgId := 0, name := "main", createdAt := 0 }, none⟩
    | .advisory key => if key = ExecutionService.SCHEDULER_ADVISORY_LOCK_KEY then ⟨some (), none⟩
        else .empty
    | _ => .empty
  clock := 0
  opened := []

theorem cronDb_initial : CronInitial cronDb where
  wf := by
    refine ⟨by simp [cronDb], fun k hk => ?_⟩
    simp only [cronDb, List.mem_cons, List.not_mem_nil, or_false, not_or] at hk
    unfold cronDb
    dsimp only
    split
    · exact absurd rfl hk.1
    · split
      · rename_i heq
        exact absurd (congrArg Key.advisory heq) hk.2
      · rfl
    · rfl
  job _ := rfl
  schedule _ := rfl
  unlocked k := by
    unfold cronDb
    dsimp only
    split
    · rfl
    · split <;> rfl
    · rfl
  opened := rfl

theorem exampleCron_increases : exampleCron.Increases := by
  intro expr t t' h
  have hnext : 60 * ((⌊t / 60⌋ : Time) + 1) = t' := Option.some.inj h
  have hfloor : t / 60 < ⌊t / 60⌋ + 1 := Int.lt_floor_add_one _
  linarith

def exampleSchedule : ScheduleCreate where
  taskName := "report"
  payload := "{}"
  cronExpr := "* * * * *"
  queue := "default"
  projectId := none
  priority := 0
  maxAttempts := 3
  timeoutSeconds := 300
  backoffStrategy := .exponential
  backoffBaseSeconds := 5
  backoffFactor := 2
  backoffMaxSeconds := 300

def cronWhole (t : TxId) (c : CronCall) (n : Nat) : List CronEvent :=
  .start t c :: List.replicate n (.run t)

-- The state after a run whose steps all pass a check.
def cronStateAfter (check : CronState → CronEvent → Bool) (events : List CronEvent) : CronState :=
  (runAll (cronSystem exampleCron fun _ => 0).step (fun s e _ => check s e) (Txn.Pool.init cronDb)
    events).getD (Txn.Pool.init cronDb)

theorem reaches_cronStateAfter (check : CronState → CronEvent → Bool) (events : List CronEvent) :
    Reaches (cronSystem exampleCron fun _ => 0).step (fun s e _ => check s e = true)
      (Txn.Pool.init cronDb) (cronStateAfter check events) :=
  Reaches.getD_runAll (fun s e _ => check s e) events

-- Schedule 3 is created, and its next tick is at 60.
def scheduledEvents : List CronEvent :=
  cronWhole 1 (.request exampleUser (.createSchedule exampleSchedule 3 8)) 7

-- A sweep, three ticks later, up to its commit.
def overdueEvents : List CronEvent :=
  scheduledEvents ++ [.tick 200] ++ cronWhole 2 (.sweep (fun id => id + 100) id) 7

end Example

end Chronos
