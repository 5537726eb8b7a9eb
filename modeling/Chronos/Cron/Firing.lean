import Chronos.Cron.Rules

namespace Chronos

open Txn (TxId Cell Stable)
variable {cron : CronClock} {owner : ScheduleId → UserId} {w u : Sweep} {c : CronCall} {t : TxId}
  {s : Schedule} {id : ScheduleId} {m : Db}

-- `u` is what is known of a sweep: `w` for the transaction the results are about.
variable (cron u) in
-- A schedule row the sweep has locked: as it is committed, or with its cursor moved.
def FiringRow (t : TxId) (id : ScheduleId) (m : Db) : Prop :=
  ∀ r, (m.cell (.schedule id)).pending = some (t, r) →
    (m.cell (.schedule id)).committed = some r ∨
      ∃ s s', (m.cell (.schedule id)).committed = some (some s) ∧ r = some s' ∧
        Advanced u s s' ∧ HasFired cron u t s m

variable (cron u) in
-- A job of the sweep, with the schedule it has fired.
def Born (t : TxId) (e : JobEntry) (m : Db) : Prop :=
  ∃ id s s', (m.cell (.schedule id)).committed = some (some s) ∧
    (m.cell (.schedule id)).pending = some (t, some s') ∧ Advanced u s s' ∧ Fired cron u s e

variable (cron u) in
-- What the sweep has locked and written. `current` is the schedule whose job is flushed and whose
-- cursor is not.
structure Sweeping (t : TxId) (current : Option Schedule) (m : Db) : Prop where
  rows : ∀ id, FiringRow cron u t id m
  jobs : ∀ i e, pendingJob m i = some (t, e) → committedJob m i = none ∧
    (Born cron u t e m ∨ ∃ s, current = some s ∧ Fired cron u s e)

-- A schedule row that is locked and not yet fired.
structure Picked (t : TxId) (p : ScheduleId × Schedule) (m : Db) : Prop where
  committed : (m.cell (.schedule p.1)).committed = some (some p.2)
  pending : (m.cell (.schedule p.1)).pending = some (t, some p.2)

section Stability

theorem stable_hasFired : Stable (cronSpec cron owner w) t (HasFired cron u t s) := by
  intro m m' _ _ hi ⟨i, e, hseen, hfired⟩
  by_cases hheld : ∃ v, (m.cell (.job i)).pending = some (t, v)
  · obtain ⟨v, hv⟩ := hheld
    exact ⟨i, e, by rwa [hi.cell_of_held hv], hfired⟩
  · have hc : committedJob m i = some e := by
      rwa [Txn.seen_of_not_mine (Txn.mine_eq_none.mpr fun v hv => hheld ⟨v, hv⟩)] at hseen
    have hkept : ∃ e', committedJob m' i = some e' ∧ e'.job.content = e.job.content := by
      obtain ⟨-, -, -, henv | ⟨c', t', -, -, -, hg⟩⟩ := hi
      · exact ⟨e, by rwa [committedJob, henv.cell], rfl⟩
      · exact hg.kept i e hc
    obtain ⟨e', hc', hcontent⟩ := hkept
    have hfree : m'.mine t (.job i) = none :=
      Txn.mine_eq_none.mpr fun v hv => hheld ⟨v, hi.held_iff.mpr hv⟩
    exact ⟨i, e', (Txn.seen_of_not_mine hfree).trans hc', hfired.congr hcontent⟩

theorem stable_firingRow (id : ScheduleId) :
    Stable (cronSpec cron owner w) t (FiringRow cron u t id) := by
  intro m m' hwf hinv hi h r hr
  have hold := hi.held_iff.mpr hr
  rw [hi.cell_of_held hold]
  rcases h r hold with hrow | ⟨s, s', hc, hrow, hadv, hfired⟩
  · exact .inl hrow
  · exact .inr ⟨s, s', hc, hrow, hadv, stable_hasFired m m' hwf hinv hi hfired⟩

theorem stable_born (e : JobEntry) : Stable (cronSpec cron owner w) t (Born cron u t e) := by
  rintro m m' _ _ hi ⟨id, s, s', hc, hp, hadv, hfired⟩
  have hcell := hi.cell_of_held hp
  exact ⟨id, s, s', by rwa [hcell], by rwa [hcell], hadv, hfired⟩

theorem stable_sweeping (current : Option Schedule) :
    Stable (cronSpec cron owner w) t (Sweeping cron u t current) := by
  intro m m' hwf hinv hi h
  refine ⟨fun id => stable_firingRow id m m' hwf hinv hi (h.rows id), fun i e hp => ?_⟩
  have hold : pendingJob m i = some (t, e) := hi.held_iff.mpr hp
  obtain ⟨hnone, hborn⟩ := h.jobs i e hold
  refine ⟨by rwa [committedJob, hi.cell_of_held hold], ?_⟩
  rcases hborn with hborn | hcurrent
  · exact .inl (stable_born e m m' hwf hinv hi hborn)
  · exact .inr hcurrent

theorem stable_picked (p : ScheduleId × Schedule) :
    Stable (cronSpec cron owner w) t (Picked t p) := by
  intro m m' _ _ hi h
  have hcell := hi.cell_of_held h.pending
  exact ⟨by rw [hcell]; exact h.committed, by rw [hcell]; exact h.pending⟩

theorem stable_allPicked (ps : List (ScheduleId × Schedule)) :
    Stable (cronSpec cron owner w) t fun m => ∀ p ∈ ps, Picked t p m :=
  Stable.all fun p => Stable.imp (stable_picked p)

end Stability

section Steps

theorem Unlocked.sweeping (h : Unlocked t m) : Sweeping cron u t none m where
  rows id r hp := absurd hp (h (.schedule id) r)
  jobs i e hp := absurd hp (h (.job i) e)

-- Statements that touch no job.
theorem HasFired.of_jobs {m' : Db} (hjob : ∀ i, m'.cell (.job i) = m.cell (.job i))
    (h : HasFired cron u t s m) : HasFired cron u t s m' := by
  obtain ⟨i, e, hseen, hfired⟩ := h
  exact ⟨i, e, by rwa [hjob], hfired⟩

theorem HasFired.insert {i : JobId} {e : JobEntry} (hwf : m.WF) (hk : Key.job i ∉ m.keys)
    (h : HasFired cron u t s m) : HasFired cron u t s (m.insert t (.job i) e) := by
  obtain ⟨j, e', hseen, hfired⟩ := h
  have hne : Key.job j ≠ Key.job i := by
    intro heq
    obtain rfl : j = i := by simpa using heq
    rw [hwf.absent _ hk] at hseen
    cases hseen
  exact ⟨j, e', by rwa [Txn.Store.insert_cell, Txn.Store.own_cell_ne t _ _ m hne], hfired⟩

-- Rows that are not of jobs or schedules do not matter.
theorem Sweeping.own_other {k : Key} {v : Row k} (hjob : ∀ i, Key.job i ≠ k)
    (hschedule : ∀ id, Key.schedule id ≠ k) (h : Sweeping cron u t none m) :
    Sweeping cron u t none (m.own t k v) := by
  have hj : ∀ i, (m.own t k v).cell (.job i) = m.cell (.job i) := fun i =>
    Txn.Store.own_cell_ne t k v m (hjob i)
  have hs : ∀ id, (m.own t k v).cell (.schedule id) = m.cell (.schedule id) := fun id =>
    Txn.Store.own_cell_ne t k v m (hschedule id)
  refine ⟨fun id r hp => ?_, fun i e hp => ?_⟩
  · rw [hs] at hp ⊢
    refine (h.rows id r hp).imp_right ?_
    rintro ⟨s, s', hc, hr, hadv, hfired⟩
    exact ⟨s, s', hc, hr, hadv, hfired.of_jobs hj⟩
  · rw [pendingJob, hj] at hp
    obtain ⟨hnone, hborn⟩ := h.jobs i e hp
    refine ⟨by rwa [committedJob, hj], .inl ?_⟩
    rcases hborn with ⟨id, s, s', hc, hp, hrest⟩ | ⟨s, hs, -⟩
    · exact ⟨id, s, s', by rwa [hs], by rwa [hs], hrest⟩
    · cases hs

-- The lock of a schedule takes the version that is seen.
theorem Sweeping.lock {row : Option Schedule} (h : Sweeping cron u t none m)
    (hseen : (m.cell (.schedule id)).seen t = some row) :
    Sweeping cron u t none (m.own t (.schedule id) row) := by
  have hj : ∀ i, (m.own t (.schedule id) row).cell (.job i) = m.cell (.job i) := fun i =>
    Txn.Store.own_cell_ne t _ _ m (by simp)
  have hpending : ∀ id' r, (m.cell (.schedule id')).pending = some (t, r) →
      ((m.own t (.schedule id) row).cell (.schedule id')).pending = some (t, r) := by
    intro id' r hp
    by_cases heq : id' = id
    · subst heq
      rw [Cell.seen_of_held hp, Option.some.injEq] at hseen
      rw [Txn.Store.own_cell_self, hseen]
    · rwa [Txn.Store.own_cell_ne t _ _ m (by simpa using heq)]
  refine ⟨fun id' r hp => ?_, fun i e hp => ?_⟩
  · rw [Txn.Store.own_committed]
    by_cases hheld : ∃ r', (m.cell (.schedule id')).pending = some (t, r')
    · obtain ⟨r', hr'⟩ := hheld
      have hsame := hpending id' r' hr'
      rw [hp, Option.some.injEq, Prod.mk.injEq] at hsame
      rw [hsame.2]
      refine (h.rows id' r' hr').imp_right ?_
      rintro ⟨s', s'', hc, hr, hadv, hfired⟩
      exact ⟨s', s'', hc, hr, hadv, hfired.of_jobs hj⟩
    · by_cases heq : id' = id
      · subst heq
        rw [Txn.Store.own_cell_self, Option.some.injEq, Prod.mk.injEq] at hp
        rw [Txn.seen_of_not_mine (Txn.mine_eq_none.mpr fun v hv => hheld ⟨v, hv⟩)] at hseen
        exact .inl (hp.2 ▸ hseen)
      · rw [Txn.Store.own_cell_ne t _ _ m (by simpa using heq)] at hp
        exact absurd ⟨r, hp⟩ hheld
  · rw [pendingJob, hj] at hp
    obtain ⟨hnone, hborn⟩ := h.jobs i e hp
    refine ⟨by rwa [committedJob, hj], .inl ?_⟩
    rcases hborn with ⟨id', s', s'', hc, hp, hrest⟩ | ⟨s', hs', -⟩
    · exact ⟨id', s', s'', by rwa [Txn.Store.own_committed], hpending id' _ hp, hrest⟩
    · cases hs'

theorem Sweeping.insert {i : JobId} {e : JobEntry} (h : Sweeping cron u t none m) (hwf : m.WF)
    (hk : Key.job i ∉ m.keys) (hfired : Fired cron u s e) :
    Sweeping cron u t (some s) (m.insert t (.job i) e) := by
  have hs : ∀ id, (m.insert t (.job i) e).cell (.schedule id) = m.cell (.schedule id) := fun id => by
    rw [Txn.Store.insert_cell, Txn.Store.own_cell_ne t _ _ m (by simp)]
  refine ⟨fun id r hp => ?_, fun j e' hp => ?_⟩
  · rw [hs] at hp ⊢
    refine (h.rows id r hp).imp_right ?_
    rintro ⟨s', s'', hc, hr, hadv, hfired'⟩
    exact ⟨s', s'', hc, hr, hadv, hfired'.insert hwf hk⟩
  · rw [pendingJob, Txn.Store.insert_cell] at hp
    by_cases hj : j = i
    · subst hj
      rw [Txn.Store.own_cell_self, Option.some.injEq, Prod.mk.injEq] at hp
      refine ⟨?_, .inr ⟨s, rfl, hp.2 ▸ hfired⟩⟩
      rw [committedJob, Txn.Store.insert_cell, Txn.Store.own_committed, hwf.absent _ hk]
      rfl
    · rw [Txn.Store.own_cell_ne t _ _ m (by simpa using hj)] at hp
      obtain ⟨hnone, hborn⟩ := h.jobs j e' hp
      refine ⟨by rwa [committedJob, Txn.Store.insert_cell, Txn.Store.own_committed], .inl ?_⟩
      rcases hborn with ⟨id, s', s'', hc, hp, hrest⟩ | ⟨s', hs', -⟩
      · exact ⟨id, s', s'', by rwa [hs], by rwa [hs], hrest⟩
      · cases hs'

-- The cursor of the schedule whose job is there moves on.
theorem Sweeping.advance {s' : Schedule} {current : Option Schedule}
    (h : Sweeping cron u t current m) (hcurrent : ∀ s₀, current = some s₀ → s₀ = s)
    (hp : Picked t (id, s) m) (hadv : Advanced u s s') (hfired : HasFired cron u t s m) :
    Sweeping cron u t none (m.own t (.schedule id) (some s')) := by
  have hj : ∀ i, (m.own t (.schedule id) (some s')).cell (.job i) = m.cell (.job i) := fun i =>
    Txn.Store.own_cell_ne t _ _ m (by simp)
  refine ⟨fun id' r hr => ?_, fun i e he => ?_⟩
  · rw [Txn.Store.own_committed]
    by_cases heq : id' = id
    · subst heq
      rw [Txn.Store.own_cell_self, Option.some.injEq, Prod.mk.injEq] at hr
      exact .inr ⟨s, s', hp.committed, hr.2.symm, hadv, hfired.of_jobs hj⟩
    · rw [Txn.Store.own_cell_ne t _ _ m (by simpa using heq)] at hr
      refine (h.rows id' r hr).imp_right ?_
      rintro ⟨s₀, s₁, hc, hr, hadv, hfired'⟩
      exact ⟨s₀, s₁, hc, hr, hadv, hfired'.of_jobs hj⟩
  · rw [pendingJob, hj] at he
    obtain ⟨hnone, hborn⟩ := h.jobs i e he
    refine ⟨by rwa [committedJob, hj], .inl ?_⟩
    have hself : Fired cron u s e → Born cron u t e (m.own t (.schedule id) (some s')) := by
      intro hf
      refine ⟨id, s, s', ?_, ?_, hadv, hf⟩
      · rw [Txn.Store.own_committed]
        exact hp.committed
      · rw [Txn.Store.own_cell_self]
    rcases hborn with ⟨id', s₀, s₁, hc, hpend, hadv₀, hf⟩ | ⟨s₀, hs₀, hf⟩
    · by_cases heq : id' = id
      · subst heq
        have hs₀ : s = s₀ := Option.some.inj (Option.some.inj (hp.committed.symm.trans hc))
        exact hself (hs₀ ▸ hf)
      · refine ⟨id', s₀, s₁, by rwa [Txn.Store.own_committed], ?_, hadv₀, hf⟩
        rwa [Txn.Store.own_cell_ne t _ _ m (by simpa using heq)]
    · exact hself (hcurrent s₀ hs₀ ▸ hf)

-- What the commit of a sweep publishes.
theorem Sweeping.publishes (h : Sweeping cron w t none m) :
    SweepPublishes cron w m (m.commit t) := by
  refine ⟨fun id s hs => ?_, fun i e hnone hsome => ?_⟩
  · rw [committedSchedule, Option.join_eq_some_iff] at hs
    cases hp : m.mine t (.schedule id) with
    | none =>
        refine ⟨s, ?_, .inl rfl⟩
        rw [committedSchedule, Txn.Store.commit_seen, Txn.seen_of_not_mine hp, hs]
        rfl
    | some r =>
        have hpub : committedSchedule (m.commit t) id = r := by
          rw [committedSchedule, Txn.Store.commit_seen, Txn.seen_of_mine hp]
          rfl
        rcases h.rows id r (Txn.mine_eq_some.mp hp) with
          hc | ⟨s₀, s', hc, rfl, hadv, i, e, hseen, hfired⟩
        · obtain rfl : r = some s := Option.some.inj (hc.symm.trans hs)
          exact ⟨s, hpub, .inl rfl⟩
        · obtain rfl : s₀ = s := Option.some.inj (Option.some.inj (hc.symm.trans hs))
          refine ⟨s', hpub, .inr ⟨hadv, i, e, ?_, hfired⟩⟩
          rw [committedJob, Txn.Store.commit_seen, hseen]
  · cases hp : m.mine t (.job i) with
    | none =>
        rw [committedJob, Txn.Store.commit_seen, Txn.seen_of_not_mine hp, ← committedJob, hnone] at hsome
        cases hsome
    | some v =>
        rw [committedJob, Txn.Store.commit_seen, Txn.seen_of_mine hp, Option.some.injEq] at hsome
        subst hsome
        obtain ⟨-, ⟨id, s, s', hc, hpend, hadv, hfired⟩ | ⟨s, hs, -⟩⟩ :=
          h.jobs i v (Txn.mine_eq_some.mp hp)
        · refine ⟨id, s, s', ?_, ?_, hadv, hfired⟩
          · rw [committedSchedule, hc]
            rfl
          · rw [committedSchedule, Txn.Store.commit_cell_held hpend]
            rfl
        · cases hs

end Steps

end Chronos
