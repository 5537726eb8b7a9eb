import Chronos.Cron.Keeps
import Chronos.Txn.Traces

namespace Chronos

open Txn (TxId Frame Cell Quiet)

-- The transaction a result is about, with its now(), and whether the result is about the content
-- of the jobs that hold the fire keys.
structure Sweep where
  tx : Option TxId
  now : Time
  strict : Prop

variable (cron : CronClock) (owner : ScheduleId → UserId) (w : Sweep)

-- The job of a schedule and of the instant its cursor is at.
structure Fired (s : Schedule) (e : JobEntry) : Prop where
  owner : e.job.ownerId = s.ownerId
  key : e.job.idempotencyKey = some (ExecutionService.fireKey cron s.id s.nextRunAt)
  content : w.strict → e.job.content = s.content cron

-- What a sweep does to the cursor of a schedule.
structure Advanced (s s' : Schedule) : Prop where
  due : ScheduleRepository.dueWhere w.now s = true
  last : s'.lastRunAt = some s.nextRunAt
  next : w.now < s'.nextRunAt

def HasFired (t : TxId) (s : Schedule) (m : Db) : Prop :=
  ∃ i e, (m.cell (.job i)).seen t = some e ∧ Fired cron w s e

-- A body that sends another expression than the one of the row.
def changesExpr (fields : List ScheduleField) (s : Schedule) : Bool :=
  (fields.filterMap ScheduleField.expr).any fun x => x ≠ some s.cronExpr

structure CronInv (m : Db) : Prop where
  unique : ∀ i j e e', Version m i e → Version m j e' → e.SameKey e' → i = j
  content : ∀ i t e e', committedJob m i = some e → pendingJob m i = some (t, e') →
    e'.job.content = e.job.content
  schedules : ∀ id s, ScheduleVersion m id s → s.id = id ∧ s.ownerId = owner id

-- The rows of jobs `t` may have pending after a statement.
inductive JobPended (m m' : Db) (i : JobId) (e' : JobEntry) : Prop
  | kept (e : JobEntry) (hv : Version m i e) (hc : e'.job.content = e.job.content)
  | inserted (hnew : m.cell (.job i) = .empty) (honly : OnlyJob i m m')
      (hclash : ∀ j e, Version m j e → ¬ e.SameKey e')

-- What one statement of a sweep publishes.
structure SweepPublishes (m m' : Db) : Prop where
  cursors : ∀ id s, committedSchedule m id = some s → ∃ s', committedSchedule m' id = some s' ∧
    (s' = s ∨ Advanced w s s' ∧ ∃ i e, committedJob m' i = some e ∧ Fired cron w s e)
  jobs : ∀ i e, committedJob m i = none → committedJob m' i = some e →
    ∃ id s s', committedSchedule m id = some s ∧ committedSchedule m' id = some s' ∧
      Advanced w s s' ∧ Fired cron w s e

-- The cursor of an unpaused schedule is moved past an instant that has come.
structure MovesDue (s s' : Schedule) : Prop where
  due : ScheduleRepository.dueWhere w.now s = true
  past : s.nextRunAt < s'.nextRunAt

def CronPublishes (m m' : Db) : CronCall → Prop
  | .sweep .. => SweepPublishes cron w m m'
  | .request _ (.updateSchedule _ fields) => ∀ id s s', committedSchedule m id = some s →
      committedSchedule m' id = some s' → w.strict → MovesDue w s s' → changesExpr fields s = true
  | _ => ∀ id s s', committedSchedule m id = some s → committedSchedule m' id = some s' → s' = s

structure CronGuar (c : CronCall) (t : TxId) (m m' : Db) : Prop where
  kept : ∀ i e, committedJob m i = some e → ∃ e', committedJob m' i = some e' ∧
    e'.job.content = e.job.content
  pended : ∀ i e', pendingJob m' i = some (t, e') → JobPended m m' i e'
  schedules : ∀ id s, ScheduleVersion m' id s → ScheduleVersion m id s ∨
    s.id = id ∧ s.ownerId = owner id
  publishes : w.tx = some t → CronPublishes cron w m m' c

inductive Begins : {β : Type} → Txn.Stmt Key Row Time β → Prop
  | mk : Begins .begin

inductive ScheduleUpdate (id : ScheduleId) : {β : Type} → Txn.Stmt Key Row Time β → Prop
  | mk (cond : Option Schedule → Bool) (set : Option Schedule → Option Schedule) :
      ScheduleUpdate id (.update (Key.schedule id) cond set)

inductive ScheduleWrite (id : ScheduleId) : {β : Type} → Txn.Stmt Key Row Time β → Prop
  | mk (set : Option Schedule → Option Schedule) :
      ScheduleWrite id (.write (Key.schedule id) set)

-- The transaction starts at its now(). In the strict results, a PATCH that leaves the expression
-- alone moves no cursor that is due, and the jobs that hold the fire key of a schedule when a
-- sweep advances it are its own.
structure CronPermits {β : Type} (c : CronCall) (t : TxId) (st : Txn.Stmt Key Row Time β)
    (m : Db) : Prop where
  start : w.tx = some t → c.movesCursor = true → Begins st → m.clock = w.now
  patch : w.strict → w.tx = some t → ∀ user scheduleId fields,
    c = .request user (.updateSchedule scheduleId fields) → ∀ id, ScheduleUpdate id st →
      ∀ s, (m.cell (.schedule id)).seen t = some (some s) →
        ScheduleRepository.dueWhere w.now s = true → fields.any ScheduleField.moves = true →
          changesExpr fields s = true
  fire : w.strict → w.tx = some t → ∀ ids rank, c = .sweep ids rank → ∀ id, ScheduleWrite id st →
    ∀ s, (m.cell (.schedule id)).pending = some (t, some s) →
      ∀ i e, (m.cell (.job i)).seen t = some e → e.job.ownerId = s.ownerId →
        e.job.idempotencyKey = some (ExecutionService.fireKey cron s.id s.nextRunAt) →
          e.job.content = s.content cron

def cronSpec : Txn.Spec Key Row Time CronCall CronValue where
  assume _ := True
  admits _ _ := True
  permits c t st m := CronPermits cron w c t st m
  inv := CronInv owner
  guar := CronGuar cron owner w
  post _ _ _ _ := True

variable {cron owner w} {c : CronCall} {t : TxId} {m m' : Db}

theorem sameKey_congr {e₁ e₂ e' : JobEntry} (h : e₂.job.content = e₁.job.content)
    (hsame : e₂.SameKey e') : e₁.SameKey e' := by
  have howner : e₂.job.ownerId = e₁.job.ownerId := congrArg JobContent.ownerId h
  have hkey : e₂.job.idempotencyKey = e₁.job.idempotencyKey := congrArg JobContent.idempotencyKey h
  exact ⟨howner ▸ hsame.owner, hkey ▸ hsame.key, hkey ▸ hsame.some⟩

theorem Fired.congr {s : Schedule} {e e' : JobEntry} (h : Fired cron w s e)
    (hc : e'.job.content = e.job.content) : Fired cron w s e' where
  owner := (congrArg JobContent.ownerId hc).trans h.owner
  key := (congrArg JobContent.idempotencyKey hc).trans h.key
  content hs := hc.trans (h.content hs)

-- After a statement of `t`, a version of a job is an old one by content, or one `t` has just
-- inserted.
theorem CronGuar.version_back (h : CronGuar cron owner w c t m m') (hf : Frame t m m') {i : JobId}
    {e' : JobEntry} (hv : Version m' i e') :
    (∃ e, Version m i e ∧ e'.job.content = e.job.content) ∨
      m.cell (.job i) = .empty ∧ OnlyJob i m m' ∧ ∀ j e, Version m j e → ¬ e.SameKey e' := by
  rcases version_before hf hv with hv | hv
  · exact .inl ⟨e', hv, rfl⟩
  · cases h.pended i e' hv with
    | kept e hv hc => exact .inl ⟨e, hv, hc⟩
    | inserted hnew honly hclash => exact .inr ⟨hnew, honly, hclash⟩

theorem version_eq_of_empty {i : JobId} {e : JobEntry} (h : m.cell (.job i) = .empty) :
    ¬ Version m i e := by
  rintro (hv | ⟨s, hv⟩)
  · rw [committedJob, h] at hv
    cases hv
  · rw [pendingJob, h] at hv
    cases hv

theorem CronGuar.unique (h : CronGuar cron owner w c t m m') (hinv : CronInv owner m)
    (hf : Frame t m m') {i j : JobId} {e e' : JobEntry} (hi : Version m' i e)
    (hj : Version m' j e') (hsame : e.SameKey e') : i = j := by
  rcases h.version_back hf hi with ⟨e₁, hv₁, hc₁⟩ | ⟨-, honly, hclash⟩
  · have hfirst : e₁.SameKey e' := sameKey_congr hc₁ hsame
    rcases h.version_back hf hj with ⟨e₂, hv₂, hc₂⟩ | ⟨-, -, hclash⟩
    · exact hinv.unique i j e₁ e₂ hv₁ hv₂ (sameKey_congr hc₂ hfirst.symm).symm
    · exact absurd hfirst (hclash i e₁ hv₁)
  · by_contra hne
    have hold : Version m j e' := by
      rwa [Version, committedJob, pendingJob, honly j (Ne.symm hne)] at hj
    exact hclash j e' hold hsame.symm

theorem CronGuar.content_step (h : CronGuar cron owner w c t m m') (hinv : CronInv owner m)
    (hf : Frame t m m') {i : JobId} {s : TxId} {e e' : JobEntry}
    (hc : committedJob m' i = some e) (hp : pendingJob m' i = some (s, e')) :
    e'.job.content = e.job.content := by
  have hcell := hf.cells (.job i)
  by_cases hs : s = t
  · subst hs
    have hcommitted : committedJob m i = some e := by
      rw [committedJob] at hc ⊢
      rw [pendingJob] at hp
      generalize m.cell (.job i) = old at hcell
      generalize m'.cell (.job i) = new at hcell hc hp
      cases hcell with
      | keep => exact hc
      | own v hfree => exact hc
      | publish base v => cases hp
      | release base v => cases hp
    cases h.pended i e' hp with
    | kept e₀ hv heq =>
        rcases hv with hv | ⟨s', hv⟩
        · rw [hcommitted, Option.some.injEq] at hv
          exact hv ▸ heq
        · exact heq.trans (hinv.content i s' e e₀ hcommitted hv)
    | inserted hnew honly hclash =>
        exact absurd (.inl hcommitted) (version_eq_of_empty hnew)
  · have hp' : pendingJob m i = some (s, e') := ((hf.cells (.job i)).other hs e').mpr hp
    have hsame : m'.cell (.job i) = m.cell (.job i) := (hf.cells (.job i)).frame hs hp'
    rw [committedJob, hsame] at hc
    exact hinv.content i s e e' hc hp'

theorem cronSpec_sound (cron : CronClock) (owner : ScheduleId → UserId) (w : Sweep) :
    (cronSpec cron owner w).Sound := by
  intro c t m m' _ _ hinv _ _ hf hg _
  refine ⟨fun i j e e' hi hj => hg.unique hinv hf hi hj,
    fun i s e e' hc hp => hg.content_step hinv hf hc hp, fun id s hs => ?_⟩
  rcases hg.schedules id s hs with hold | hnew
  · exact hinv.schedules id s hold
  · exact hnew

theorem CronInv.of_cells (hinv : CronInv owner m) (hcell : m'.cell = m.cell) : CronInv owner m' := by
  obtain ⟨hunique, hcontent, hschedules⟩ := hinv
  constructor
  · intro i j e e' hi hj
    refine hunique i j e e' ?_ ?_
    · simpa only [Version, committedJob, pendingJob, hcell] using hi
    · simpa only [Version, committedJob, pendingJob, hcell] using hj
  · intro i t e e' hc hp
    exact hcontent i t e e' (by simpa only [committedJob, hcell] using hc)
      (by simpa only [pendingJob, hcell] using hp)
  · intro id s hs
    exact hschedules id s (by simpa only [ScheduleVersion, hcell] using hs)

section Guarantees

-- A statement that publishes nothing.
theorem publishes_quiet (c : CronCall) (h : Quiet m m') : CronPublishes cron w m m' c := by
  have hsame : ∀ id, committedSchedule m' id = committedSchedule m id := fun id => by
    rw [committedSchedule, h, committedSchedule]
  have hsweep : SweepPublishes cron w m m' := by
    refine ⟨fun id s hs => ⟨s, (hsame id).trans hs, .inl rfl⟩, fun i e hnone hsome => ?_⟩
    rw [committedJob, h, ← committedJob, hnone] at hsome
    cases hsome
  have hother : ∀ id s s', committedSchedule m id = some s → committedSchedule m' id = some s' →
      s' = s := by
    intro id s s' hs hs'
    rw [hsame, hs, Option.some.injEq] at hs'
    exact hs'.symm
  unfold CronPublishes
  split
  · exact hsweep
  · intro id s s' hs hs' _ hmoves
    have hpast := hmoves.past
    rw [hother id s s' hs hs'] at hpast
    exact absurd hpast (lt_irrefl _)
  · exact hother

theorem CronGuar.refl : CronGuar cron owner w c t m m where
  kept _ e h := ⟨e, h, rfl⟩
  pended _ e' h := .kept e' (.inr ⟨t, h⟩) rfl
  schedules _ _ h := .inl h
  publishes _ := publishes_quiet c (Txn.quiet_refl m)

theorem CronGuar.rollback : CronGuar cron owner w c t m (m.rollback t) where
  kept i e h := ⟨e, by rwa [committedJob, Txn.Store.rollback_committed], rfl⟩
  pended i e' hp := absurd hp (m.rollback_not_held t (.job i) e')
  schedules id s hs := by
    refine .inl ?_
    rcases hs with hs | ⟨u, hs⟩
    · exact .inl (by rwa [Txn.Store.rollback_committed] at hs)
    · by_cases hu : u = t
      · exact absurd (hu ▸ hs) (m.rollback_not_held t (.schedule id) (some s))
      · exact .inr ⟨u, (((Frame.rollback t m).cells _).other hu _).mpr hs⟩
  publishes _ := publishes_quiet c (Txn.quiet_rollback t m)

-- The versions of a row that `t` may own after a statement.
def OwnOk (owner : ScheduleId → UserId) (m : Db) : (k : Key) → Row k → Prop
  | .job i, e' => ∃ e, Version m i e ∧ e'.job.content = e.job.content
  | .schedule id, s' => ∀ s, s' = some s → ScheduleVersion m id s ∨ s.id = id ∧ s.ownerId = owner id
  | _, _ => True

theorem CronGuar.own {k : Key} {v : Row k} (h : OwnOk owner m k v) :
    CronGuar cron owner w c t m (m.own t k v) where
  kept i e hc := ⟨e, by rwa [committedJob, Txn.Store.own_committed], rfl⟩
  pended i e' hp := by
    by_cases hk : Key.job i = k
    · subst hk
      rw [pendingJob, Txn.Store.own_cell_self, Option.some.injEq, Prod.mk.injEq] at hp
      obtain ⟨e, hv, hc⟩ := h
      exact .kept e hv (hp.2 ▸ hc)
    · rw [pendingJob, Txn.Store.own_cell_ne t k v m hk] at hp
      exact .kept e' (.inr ⟨t, hp⟩) rfl
  schedules id s hs := by
    by_cases hk : Key.schedule id = k
    · subst hk
      rcases hs with hs | ⟨u, hs⟩
      · exact .inl (.inl (by rwa [Txn.Store.own_committed] at hs))
      · rw [Txn.Store.own_cell_self, Option.some.injEq, Prod.mk.injEq] at hs
        exact h s hs.2
    · refine .inl ?_
      rwa [ScheduleVersion, Txn.Store.own_committed, Txn.Store.own_cell_ne t k v m hk] at hs
  publishes _ := publishes_quiet c (Txn.quiet_own v)

theorem scheduleVersion_of_seen {id : ScheduleId} {s : Schedule}
    (h : (m.cell (.schedule id)).seen t = some (some s)) : ScheduleVersion m id s := by
  rcases Cell.seen_cases h with hp | hc
  · exact .inr ⟨t, hp⟩
  · exact .inl hc

-- A row as it is seen, once it has been through a statement that keeps the rules.
theorem ownOk_of_seen {k : Key} {v : Row k} {set : Row k → Row k}
    (h : (m.cell k).seen t = some v) (hset : KeepsRow k set) : OwnOk owner m k (set v) := by
  cases k with
  | job i => exact ⟨v, version_of_seen h, hset v⟩
  | schedule id =>
      intro s hs
      rcases hset v with heq | hnone
      · rw [heq] at hs
        subst hs
        exact .inl (scheduleVersion_of_seen h)
      · rw [hnone] at hs
        cases hs
  | _ => trivial

theorem keepsRow_id (k : Key) : KeepsRow k id := by
  cases k with
  | job i => exact fun _ => rfl
  | schedule id => exact fun _ => .inl rfl
  | _ => trivial

theorem mem_keys_of_version (hwf : m.WF) {i : JobId} {e : JobEntry} (h : Version m i e) :
    Key.job i ∈ m.keys := by
  by_contra hk
  exact version_eq_of_empty (hwf.absent _ hk) h

-- The idempotency index lets nothing through that a version of another job clashes with.
theorem not_sameKey_of_index (hwf : m.WF) (hinv : CronInv owner m) {e' : JobEntry}
    (hclashes : Txn.insertClashes t (uqJobsOwnerIdempotency e'.job) m = false)
    (hwaits : Txn.insertWaits (uqJobsOwnerIdempotency e'.job) m = false) {j : JobId} {e : JobEntry}
    (hv : Version m j e) : ¬ e.SameKey e' := by
  intro hsame
  have hkeys := mem_keys_of_version hwf hv
  have hmatch : ∀ e₀ : JobEntry, e₀.SameKey e' →
      uqJobsOwnerIdempotency e'.job (.job j) e₀ = true := by
    intro e₀ h
    have hsome := h.symm.some
    simp [uqJobsOwnerIdempotency, hsome, h.owner, h.key]
  rw [Txn.insertWaits, List.any_eq_false] at hwaits
  rw [Txn.insertClashes, List.any_eq_false] at hclashes
  cases hp : (m.cell (.job j)).pending with
  | none =>
      refine hclashes (.job j) hkeys ?_
      rcases hv with hv | ⟨s, hv⟩
      · rw [Cell.seen_of_free hp, ← committedJob, hv]
        exact hmatch e hsame
      · rw [pendingJob, hp] at hv
        cases hv
  | some p =>
      -- The version of the lock holder has the content of the committed one.
      refine hwaits (.job j) hkeys ?_
      rw [hp]
      rcases hv with hv | ⟨s, hv⟩
      · exact hmatch p.2 (sameKey_congr (hinv.content j p.1 e p.2 hv hp).symm hsame)
      · rw [pendingJob, hp, Option.some.injEq] at hv
        rw [hv]
        exact hmatch e hsame

theorem CronGuar.insert_job (hwf : m.WF) (hinv : CronInv owner m) {i : JobId} {e' : JobEntry}
    (hk : Key.job i ∉ m.keys)
    (hclashes : Txn.insertClashes t (uqJobsOwnerIdempotency e'.job) m = false)
    (hwaits : Txn.insertWaits (uqJobsOwnerIdempotency e'.job) m = false) :
    CronGuar cron owner w c t m (m.insert t (.job i) e') where
  kept j e hc := ⟨e, by rwa [committedJob, Txn.Store.insert_cell, Txn.Store.own_committed], rfl⟩
  pended j e hp := by
    rw [pendingJob, Txn.Store.insert_cell] at hp
    by_cases hj : j = i
    · subst hj
      rw [Txn.Store.own_cell_self, Option.some.injEq, Prod.mk.injEq] at hp
      obtain ⟨-, rfl⟩ := hp
      refine .inserted (hwf.absent _ hk) (fun j' hj' => ?_) fun j' e hv => ?_
      · rw [Txn.Store.insert_cell, Txn.Store.own_cell_ne t _ _ m (by simpa using hj')]
      · exact not_sameKey_of_index hwf hinv hclashes hwaits hv
    · rw [Txn.Store.own_cell_ne t _ _ m (by simpa using hj)] at hp
      exact .kept e (.inr ⟨t, hp⟩) rfl
  schedules id s hs := by
    refine .inl ?_
    rwa [ScheduleVersion, Txn.Store.insert_cell, Txn.Store.own_committed,
      Txn.Store.own_cell_ne t _ _ m (by simp)] at hs
  publishes _ := publishes_quiet c fun k => by
    rw [Txn.Store.insert_cell, Txn.Store.own_committed]

-- Inserts into the other tables, and of a schedule under its own id.
theorem CronGuar.insert_other {k : Key} {v : Row k} (h : OwnOk owner m k v) :
    CronGuar cron owner w c t m (m.insert t k v) := by
  obtain ⟨hkept, hpended, hschedules, -⟩ := @CronGuar.own cron owner w c t m k v h
  refine ⟨hkept, fun i e' hp => ?_, hschedules, fun _ => ?_⟩
  · cases hpended i e' hp with
    | kept e hv hc => exact .kept e hv hc
    | inserted hnew honly hclash => exact .inserted hnew honly hclash
  · exact publishes_quiet c fun k' => Txn.Store.own_committed t k v m k'

end Guarantees

end Chronos
