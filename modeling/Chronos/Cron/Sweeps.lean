import Chronos.Cron.Firing

namespace Chronos

open Txn (TxId Stable Triple stmt)
open ScheduleRepository (dueWhere dueScan dueLimit lockDue)
open ExecutionService (fireKey firedJob advance flushFiring fireSchedules materializeSchedulesOnce)

variable {cron : CronClock} {owner : ScheduleId → UserId} {w u : Sweep} {c : CronCall} {t : TxId}
  {s : Schedule} {id : ScheduleId} {ids : ScheduleId → JobId} {rank : ScheduleId → Nat}
  {now : Time}

-- Nothing is known about the content of the job.
def Sweep.loose (u : Sweep) : Sweep := { u with strict := False }

-- What is known of the sweep `t`: everything, if it is the one the results are about.
structure Known (w u : Sweep) (t : TxId) : Prop where
  same : w.tx = some t → u = w
  strict : u.strict → w.strict ∧ w.tx = some t

-- croniter's get_next returns an instant strictly after its argument.
def CronClock.Increases (cron : CronClock) : Prop := ∀ expr t t', cron.next expr t = some t' → t < t'

theorem advanced_of_next (hcron : cron.Increases) {n : Time}
    (hnext : cron.next s.cronExpr (max s.nextRunAt u.now) = some n)
    (hdue : dueWhere u.now s = true) : Advanced u s (advance n s) where
  due := hdue
  last := rfl
  next := (le_max_right _ _).trans_lt (hcron _ _ _ hnext)

section Lock

-- A schedule `t` has not locked.
def NotHeld (t : TxId) (id : ScheduleId) (m : Db) : Prop := m.mine t (.schedule id) = none

theorem stable_notHeld (ids : List ScheduleId) :
    Stable (cronSpec cron owner w) t fun m => ∀ id ∈ ids, NotHeld t id m :=
  Stable.all fun id => Stable.imp fun m m' _ _ hi h => by
    rw [NotHeld, Txn.mine_eq_none] at h ⊢
    exact fun v hv => h v (hi.held_iff.mpr hv)

theorem triple_lockSchedule {guard : Schedule → Bool} {P : Db → Prop}
    {R : Option Schedule → Db → Prop} (hst : Stable (cronSpec cron owner w) t P)
    (hstR : ∀ r, Stable (cronSpec cron owner w) t (R r)) (hnone : ∀ m, P m → R none m)
    (hkeep : ∀ m row, P m → (m.cell (.schedule id)).seen t = some row →
      R none (m.own t (.schedule id) row))
    (hsome : ∀ m s, P m → (m.cell (.schedule id)).seen t = some (some s) → guard s = true →
      R (some s) (m.own t (.schedule id) (some s))) :
    Triple (cronSpec cron owner w) c t P (lockSchedule id guard) R := by
  have hlock : Triple (cronSpec cron owner w) c t P
      (stmt (.lock (Key.schedule id) (Option.any guard))) fun row m => R (Option.join row) m := by
    refine cron_stmt hst (fun r => hstR _) (fun m r m' _ _ hP he _ => ?_) fun m r hP hs => ?_
    · rcases Txn.exec_lock he with ⟨rfl, rfl⟩ | ⟨v, hseen, -, rfl, ⟨-, rfl⟩ | ⟨hg, rfl⟩⟩
      · exact ⟨.refl, hnone _ hP⟩
      · exact ⟨.own (ownOk_of_seen hseen (keepsRow_id (.schedule id))), hkeep m v hP hseen⟩
      · cases v with
        | none => cases hg
        | some s =>
            exact ⟨.own (ownOk_of_seen hseen (keepsRow_id (.schedule id))), hsome m s hP hseen hg⟩
    · simp only [Txn.Stmt.skipped, Option.some.injEq] at hs
      exact hs ▸ hnone m hP
  exact .bind (cronSpec_sound cron owner w) hlock fun row => .pure (hstR _) fun m h => h

theorem NotHeld.own {i : ScheduleId} {m : Db} {r : Option Schedule} (h : NotHeld t i m)
    (hne : i ≠ id) : NotHeld t i (m.own t (.schedule id) r) := by
  rwa [NotHeld, Txn.mine_own_ne _ (by simpa using hne)]

theorem picked_own {p : ScheduleId × Schedule} {m : Db} {r : Option Schedule}
    (h : Picked t p m) (hne : p.1 ≠ id) : Picked t p (m.own t (.schedule id) r) := by
  have hcell : (m.own t (.schedule id) r).cell (.schedule p.1) = m.cell (.schedule p.1) :=
    Txn.Store.own_cell_ne t _ _ m (by simpa using hne)
  exact ⟨by rw [hcell]; exact h.committed, by rw [hcell]; exact h.pending⟩

theorem Picked.insert {p : ScheduleId × Schedule} {m : Db} {i : JobId} {e : JobEntry}
    (h : Picked t p m) : Picked t p (m.insert t (.job i) e) := by
  have hcell : (m.insert t (.job i) e).cell (.schedule p.1) = m.cell (.schedule p.1) := by
    rw [Txn.Store.insert_cell, Txn.Store.own_cell_ne t _ _ m (by simp)]
  exact ⟨by rw [hcell]; exact h.committed, by rw [hcell]; exact h.pending⟩

theorem NotHeld.ne_of_picked {p : ScheduleId × Schedule} {m : Db} (h : NotHeld t id m)
    (hp : Picked t p m) : p.1 ≠ id := by
  rintro rfl
  exact Txn.mine_eq_none.mp h _ hp.pending

theorem NotHeld.picked {m : Db} (h : NotHeld t id m)
    (hseen : (m.cell (.schedule id)).seen t = some (some s)) :
    Picked t (id, s) (m.own t (.schedule id) (some s)) where
  committed := by
    rw [Txn.Store.own_committed]
    rwa [Txn.seen_of_not_mine h] at hseen
  pending := by rw [Txn.Store.own_cell_self]

theorem triple_lockDue (n : Nat) (todo : List ScheduleId) (done : List (ScheduleId × Schedule))
    (hnodup : todo.Nodup) :
    Triple (cronSpec cron owner w) c t
      (fun m => Sweeping cron u t none m ∧ (∀ id ∈ todo, NotHeld t id m) ∧ ∀ p ∈ done, Picked t p m)
      (lockDue now n todo)
      fun ps m => ((ps.map Prod.fst).Sublist todo ∧ ∀ p ∈ ps, dueWhere now p.2 = true) ∧
        Sweeping cron u t none m ∧ ∀ p ∈ done ++ ps, Picked t p m := by
  have hend : ∀ (todo : List ScheduleId) (done : List (ScheduleId × Schedule)),
      Triple (cronSpec cron owner w) c t
      (fun m => Sweeping cron u t none m ∧ (∀ id ∈ todo, NotHeld t id m) ∧ ∀ p ∈ done, Picked t p m)
      (pure []) fun ps m =>
        ((ps.map Prod.fst).Sublist todo ∧ ∀ p ∈ ps, dueWhere now p.2 = true) ∧
          Sweeping cron u t none m ∧ ∀ p ∈ done ++ ps, Picked t p m := by
    intro todo done
    refine .pure ((stable_sweeping _).and ((stable_notHeld todo).and (stable_allPicked done)))
      fun m h => ⟨⟨List.nil_sublist _, by simp⟩, h.1, ?_⟩
    rw [List.append_nil]
    exact h.2.2
  have hsound := cronSpec_sound cron owner w
  induction todo generalizing n done with
  | nil =>
      cases n with
      | zero =>
          rw [lockDue]
          exact hend [] done
      | succ n =>
          rw [lockDue]
          · exact hend [] done
          · exact Nat.succ_ne_zero n
  | cons id todo ih =>
      rw [List.nodup_cons] at hnodup
      cases n with
      | zero =>
          rw [lockDue]
          exact hend (id :: todo) done
      | succ n =>
          rw [lockDue]
          refine .bind hsound (triple_lockSchedule (R := fun row m =>
            (∀ s, row = some s → dueWhere now s = true) ∧ Sweeping cron u t none m ∧
              (∀ id ∈ todo, NotHeld t id m) ∧
                ∀ p ∈ done ++ (row.map fun s => (id, s)).toList, Picked t p m)
            ((stable_sweeping _).and ((stable_notHeld _).and (stable_allPicked _)))
            (fun row => (Stable.const _).and ((stable_sweeping _).and
              ((stable_notHeld _).and (stable_allPicked _)))) ?_ ?_ ?_) fun row => ?_
          · intro m ⟨hsweep, hfree, hdone⟩
            refine ⟨by simp, hsweep, fun i hi => hfree i (List.mem_cons_of_mem _ hi), ?_⟩
            simpa using hdone
          -- A schedule that is no longer due stays locked, as it is.
          · intro m row ⟨hsweep, hfree, hdone⟩ hseen
            have hself := hfree id List.mem_cons_self
            refine ⟨by simp, hsweep.lock hseen, fun i hi =>
              (hfree i (List.mem_cons_of_mem _ hi)).own fun heq => hnodup.1 (heq ▸ hi), ?_⟩
            simpa using fun a b hp => picked_own (hdone (a, b) hp) (hself.ne_of_picked (hdone _ hp))
          · intro m s ⟨hsweep, hfree, hdone⟩ hseen hdue
            have hself := hfree id List.mem_cons_self
            refine ⟨fun s' hs' => Option.some.inj hs' ▸ hdue, hsweep.lock hseen, fun i hi =>
              (hfree i (List.mem_cons_of_mem _ hi)).own fun heq => hnodup.1 (heq ▸ hi),
              fun p hp => ?_⟩
            · rcases List.mem_append.mp hp with hp | hp
              · exact picked_own (hdone p hp) (hself.ne_of_picked (hdone p hp))
              · obtain rfl : p = (id, s) := by simpa using hp
                exact hself.picked hseen
          · cases row with
            | none =>
                refine ((ih (n + 1) done hnodup.2).pre fun m _ _ _ _ h =>
                  ⟨h.2.1, h.2.2.1, by simpa using h.2.2.2⟩).post fun ps m h => ?_
                exact ⟨⟨h.1.1.trans (List.sublist_cons_self _ _), h.1.2⟩, h.2⟩
            | some s =>
                refine Triple.assuming (φ := dueWhere now s = true) (fun m h => h.1 s rfl)
                  fun hdue => ?_
                refine .bind hsound ((ih n (done ++ [(id, s)]) hnodup.2).pre fun m _ _ _ _ h =>
                  ⟨h.2.1, h.2.2.1, by simpa using h.2.2.2⟩) fun ps => ?_
                refine .pure ((Stable.const _).and ((stable_sweeping _).and (stable_allPicked _)))
                  fun m h => ?_
                obtain ⟨⟨hsub, hall⟩, hsweep, hpicked⟩ := h
                refine ⟨⟨hsub.cons_cons id, fun p hp => ?_⟩, hsweep, by simpa using hpicked⟩
                rcases List.mem_cons.mp hp with rfl | hp
                · exact hdue
                · exact hall p hp

end Lock

section Fire

variable {due : List (ScheduleId × Schedule)}

theorem getByIdempotencyKey_fired {m : Db} {job : Job}
    (h : JobRepository.getByIdempotencyKey s.ownerId (fireKey cron s.id s.nextRunAt) (m.view t) =
      some job) : HasFired cron u.loose t s m := by
  rw [JobRepository.getByIdempotencyKey, Option.map_eq_some_iff] at h
  obtain ⟨p, hp, -⟩ := h
  obtain ⟨-, he, hmatch⟩ := mem_jobsWhere.mp (List.mem_of_head? hp)
  rw [decide_eq_true_eq] at hmatch
  exact ⟨p.1, p.2, he, hmatch.1, hmatch.2, False.elim⟩

theorem fired_firedJob (i : JobId) :
    Fired cron u s { job := firedJob cron i s now, attempts := [], dependsOn := [],
                     log := [.created t] } :=
  ⟨rfl, rfl, fun _ => firedJob_content cron i s now⟩

-- The job of a firing is flushed, if there is one, and then the cursor.
theorem triple_flushFiring (hknown : Known w u t) {job : Option Job} {n : Time}
    (hjob : ∀ x, job = some x → x = firedJob cron (ids id) s u.now)
    (hadv : Advanced u s (advance n s)) (hids : ∀ p ∈ due, p.1 ≠ id) :
    Triple (cronSpec cron owner w) (.sweep ids rank) t
      (fun m => (job = none → HasFired cron u.loose t s m) ∧ Sweeping cron u t none m ∧
        ∀ p ∈ (id, s) :: due, Picked t p m)
      (flushFiring t id job n)
      fun flushed m => flushed = true → Sweeping cron u t none m ∧ ∀ p ∈ due, Picked t p m := by
  have hsound := cronSpec_sound cron owner w
  have hready : ∀ b : Bool, Stable (cronSpec cron owner w) t fun m => b = true →
      HasFired cron u.loose t s m ∧
        (∃ current, (∀ s₀, current = some s₀ → s₀ = s) ∧ Sweeping cron u t current m) ∧
          ∀ p ∈ (id, s) :: due, Picked t p m := fun b =>
    Stable.imp (stable_hasFired.and ((Stable.exists fun _ => (Stable.const _).and
      (stable_sweeping _)).and (stable_allPicked _)))
  have hstart : Stable (cronSpec cron owner w) t fun m =>
      (job = none → HasFired cron u.loose t s m) ∧ Sweeping cron u t none m ∧
        ∀ p ∈ (id, s) :: due, Picked t p m :=
    (Stable.imp stable_hasFired).and ((stable_sweeping _).and (stable_allPicked _))
  -- The cursor, once the job is there.
  have hcursor : ∀ b : Bool, Triple (cronSpec cron owner w) (.sweep ids rank) t
      (fun m => b = true → HasFired cron u.loose t s m ∧
        (∃ current, (∀ s₀, current = some s₀ → s₀ = s) ∧ Sweeping cron u t current m) ∧
          ∀ p ∈ (id, s) :: due, Picked t p m)
      (if b = true then do
        let _ ← writeSchedule id (advance n)
        return true
      else return false)
      fun flushed m => flushed = true → Sweeping cron u t none m ∧ ∀ p ∈ due, Picked t p m := by
    intro b
    cases b with
    | false =>
        rw [if_neg Bool.false_ne_true]
        exact .pure (hready false) fun m _ h => absurd h Bool.false_ne_true
    | true =>
        rw [if_pos rfl]
        refine .bind hsound (R := fun _ m => Sweeping cron u t none m ∧ ∀ p ∈ due, Picked t p m)
          (cron_stmt (hready true) (fun _ => (stable_sweeping _).and (stable_allPicked _)) ?_
            (by simp [Txn.Stmt.skipped])) fun _ => .pure ((stable_sweeping _).and
              (stable_allPicked _)) fun m h _ => h
        intro m r m' _ hinv h he hperm
        obtain ⟨⟨i, e, hseen, hfired⟩, ⟨current, hcurrent, hsweep⟩, hpicked⟩ := h rfl
        have hself := hpicked _ List.mem_cons_self
        have hstrict : HasFired cron u t s m := by
          refine ⟨i, e, hseen, hfired.owner, hfired.key, fun hs => ?_⟩
          obtain ⟨hstrict, ht⟩ := hknown.strict hs
          exact hperm.fire hstrict ht ids rank rfl id (.mk _) s hself.pending i e hseen
            hfired.owner hfired.key
        rcases Txn.exec_write he with ⟨-, rfl, hnot⟩ | ⟨v, hp, -, rfl⟩
        · exact absurd hself.pending (hnot _)
        · obtain rfl : v = some s := by
            rw [hself.pending, Option.some.injEq, Prod.mk.injEq] at hp
            exact hp.2.symm
          refine ⟨.own fun s' hs' => .inr ?_, hsweep.advance hcurrent hself hadv hstrict,
            fun p hp => picked_own (hpicked p (List.mem_cons_of_mem _ hp)) (hids p hp)⟩
          rw [← Option.some.inj hs']
          exact hinv.schedules id s (.inl hself.committed)
  cases job with
  | none =>
      refine .bind hsound (.pure hstart fun m h => ?_) hcursor
      exact fun _ => ⟨h.1 rfl, ⟨none, by simp, h.2.1⟩, h.2.2⟩
  | some x =>
      obtain rfl := hjob x rfl
      unfold flushFiring
      dsimp only
      split
      · refine .bind hsound (cron_stmt hstart hready (fun m r m' hwf hinv h he _ => ?_)
          (by simp [Txn.Stmt.skipped])) hcursor
        obtain ⟨hk, ⟨rfl, rfl, -⟩ | ⟨rfl, rfl, hclashes, hwaits⟩⟩ := Txn.exec_insert he
        · exact ⟨.refl, fun hb => absurd hb Bool.false_ne_true⟩
        · let row : JobEntry :=
            { job := firedJob cron (ids id) s u.now, attempts := [], dependsOn := [],
              log := [.created t] }
          have hloose : Fired cron u.loose s row := fired_firedJob (ids id)
          refine ⟨.insert_job hwf hinv hk hclashes hwaits, fun _ => ⟨⟨row.job.id, row, ?_, hloose⟩,
            ⟨some s, fun s₀ hs₀ => ?_, h.2.1.insert hwf hk (fired_firedJob (ids id))⟩,
              fun p hp => ?_⟩⟩
          · exact Txn.seen_of_mine (Txn.mine_insert_self (V := Row) (k := Key.job (ids id)) row)
          · exact (Option.some.inj hs₀).symm
          · exact (h.2.2 p hp).insert
      · exact .bind hsound (.pure hstart fun m _ h => absurd h Bool.false_ne_true) hcursor

theorem triple_fireSchedules (hcron : cron.Increases) (hknown : Known w u t)
    (hnodup : (due.map Prod.fst).Nodup) (hdue : ∀ p ∈ due, dueWhere u.now p.2 = true) :
    Triple (cronSpec cron owner w) (.sweep ids rank) t
      (fun m => Sweeping cron u t none m ∧ ∀ p ∈ due, Picked t p m)
      (fireSchedules cron t ids u.now due)
      fun r m => ∀ n, r = .ok n → Sweeping cron u t none m := by
  have hsound := cronSpec_sound cron owner w
  have hend : ∀ r : Except PyError Nat, Stable (cronSpec cron owner w) t fun m =>
      ∀ n, r = .ok n → Sweeping cron u t none m := fun r =>
    Stable.all fun _ => Stable.imp (stable_sweeping _)
  induction due with
  | nil =>
      exact .pure ((stable_sweeping _).and (stable_allPicked _)) fun m h n _ => h.1
  | cons p due ih =>
      obtain ⟨id, s⟩ := p
      rw [List.map_cons, List.nodup_cons] at hnodup
      have hs := hdue (id, s) List.mem_cons_self
      have hids : ∀ p ∈ due, p.1 ≠ id := fun p hp heq =>
        hnodup.1 (List.mem_map.mpr ⟨p, hp, heq⟩)
      have hpre : Stable (cronSpec cron owner w) t fun m => Sweeping cron u t none m ∧
          ∀ p ∈ (id, s) :: due, Picked t p m := (stable_sweeping _).and (stable_allPicked _)
      have hstR : ∀ existing : Option Job, Stable (cronSpec cron owner w) t fun m =>
          (existing ≠ none → HasFired cron u.loose t s m) ∧ Sweeping cron u t none m ∧
            ∀ p ∈ (id, s) :: due, Picked t p m := fun _ => (Stable.imp stable_hasFired).and hpre
      refine .bind hsound (cron_select hpre hstR fun m _ h => ⟨fun hne => ?_, h⟩) fun existing => ?_
      · obtain ⟨job, hjob⟩ := Option.ne_none_iff_exists'.mp hne
        exact getByIdempotencyKey_fired hjob
      · dsimp only
        split
        · exact .pure (hstR existing) fun m _ n h => by cases h
        · rename_i next hnext
          have hadv := advanced_of_next (u := u) hcron hnext hs
          refine .bind hsound ((triple_flushFiring hknown ?_ hadv hids).pre
            fun m _ _ _ _ h => ⟨fun hnone => h.1 ?_, h.2⟩) fun flushed => ?_
          · intro x hx
            split at hx
            · cases hx
            · exact (Option.some.inj hx).symm
          · rintro rfl
            cases hnone
          · cases flushed with
            | false =>
                rw [if_neg Bool.false_ne_true]
                exact .pure (Stable.imp ((stable_sweeping _).and (stable_allPicked _)))
                  fun m _ n h => by cases h
            | true =>
                rw [if_pos rfl]
                refine .bind hsound ((ih hnodup.2 fun p hp =>
                  hdue p (List.mem_cons_of_mem _ hp)).pre fun m _ _ _ _ h => h rfl) fun r => ?_
                cases r with
                | error err => exact .pure (hend _) fun m _ n h => by cases h
                | ok created => exact .pure (hend _) fun m h n _ => h created rfl

theorem nodup_scheduleIds {keys : List Key} (h : keys.Nodup) :
    (keys.filterMap Key.scheduleId).Nodup := by
  refine h.filterMap fun k k' id hk hk' => ?_
  cases k <;> cases k' <;> simp_all [Key.scheduleId]

theorem nodup_dueScan {v : Snapshot} (h : v.keys.Nodup) (now : Time) (rank : ScheduleId → Nat) :
    (dueScan now rank v).Nodup := by
  have hrows := nodup_rows (nodup_scheduleIds h) v.schedule (dueWhere now)
  exact (((List.perm_insertionSort _ _).map Prod.fst).nodup_iff).mpr hrows

theorem triple_materializeSchedulesOnce (hcron : cron.Increases) :
    Triple (cronSpec cron owner w) (.sweep ids rank) t (Unlocked t)
      (materializeSchedulesOnce cron t ids rank) fun _ _ => True := by
  have hsound := cronSpec_sound cron owner w
  have hexit {β : Type} (a : β) {P : Db → Prop} (hst : Stable (cronSpec cron owner w) t P) :
      Triple (cronSpec cron owner w) (.sweep ids rank) t P
        (stmt .rollback >>= fun _ => pure a : Tx β) fun _ _ => True :=
    .bind hsound (cron_rollback (Q := fun _ => True) hst (Stable.const True) fun _ _ => trivial)
      fun _ => .pure (Stable.const True) fun _ _ => trivial
  refine .bind hsound (cron_begin cron_stable_unlocked) fun now => ?_
  -- What is known of this sweep, when it is not the one the results are about, is nothing.
  obtain ⟨u, hnow, hknown⟩ : ∃ u : Sweep, ((w.tx = some t → now = w.now) → u.now = now) ∧
      Known w u t := by
    by_cases ht : w.tx = some t
    · exact ⟨w, fun h => (h ht).symm, fun _ => rfl, fun hs => ⟨hs, ht⟩⟩
    · exact ⟨⟨some t, now, False⟩, fun _ => rfl, fun h => absurd h ht, False.elim⟩
  refine Triple.assuming (φ := w.tx = some t → now = w.now) (fun m h ht => h.1 ht rfl) fun hclock => ?_
  obtain rfl : u.now = now := hnow hclock
  have hsweep : Stable (cronSpec cron owner w) t (Sweeping cron u t none) := stable_sweeping _
  have hlock : Triple (cronSpec cron owner w) (.sweep ids rank) t
      (fun m => (w.tx = some t → (CronCall.sweep ids rank).movesCursor = true → u.now = w.now) ∧
        Unlocked t m)
      (stmt (.lock (.advisory ExecutionService.SCHEDULER_ADVISORY_LOCK_KEY) fun _ => true))
      fun _ m => Sweeping cron u t none m ∧ ∀ id, NotHeld t id m := by
    have hfree : Stable (cronSpec cron owner w) t fun m => ∀ id, NotHeld t id m :=
      Stable.all fun id m m' hwf hinv hi h =>
        stable_notHeld [id] m m' hwf hinv hi (by simpa using h) id List.mem_cons_self
    have hstart {m : Db} (h : Unlocked t m) :
        Sweeping cron u t none m ∧ ∀ id, NotHeld t id m :=
      ⟨h.sweeping, fun id => Txn.mine_eq_none.mpr (h (.schedule id))⟩
    refine cron_stmt ((Stable.const _).and cron_stable_unlocked) (fun _ => hsweep.and hfree)
      (fun m r m' _ _ h he _ => ?_) fun m r h _ => hstart h.2
    rcases Txn.exec_lock he with ⟨-, rfl⟩ | ⟨v, -, -, rfl, -⟩
    · exact ⟨.refl, hstart h.2⟩
    · refine ⟨.own trivial, (hstart h.2).1.own_other (by simp) (by simp), fun id => ?_⟩
      rw [NotHeld, Txn.mine_own_ne _ (by simp)]
      exact (hstart h.2).2 id
  refine .bind hsound hlock fun got => ?_
  have hfree (scan : List ScheduleId) : Stable (cronSpec cron owner w) t fun m =>
      Sweeping cron u t none m ∧ ∀ id ∈ scan, NotHeld t id m :=
    hsweep.and (stable_notHeld scan)
  have hall : Stable (cronSpec cron owner w) t fun m =>
      Sweeping cron u t none m ∧ ∀ id, NotHeld t id m :=
    hsweep.and (Stable.all fun id m m' hwf hinv hi h =>
      stable_notHeld [id] m m' hwf hinv hi (by simpa using h) id List.mem_cons_self)
  cases got with
  | none => exact hexit _ hall
  | some _ =>
      refine .bind hsound (cron_select (R := fun scan m => scan.Nodup ∧ Sweeping cron u t none m ∧
        ∀ id ∈ scan, NotHeld t id m) hall (fun scan => (Stable.const _).and (hfree scan))
        fun m hwf h => ⟨nodup_dueScan hwf.nodup _ _, h.1, fun id _ => h.2 id⟩) fun candidates => ?_
      refine Triple.assuming (φ := candidates.Nodup) (fun m h => h.1) fun hnodup => ?_
      refine .bind hsound ((triple_lockDue dueLimit candidates [] hnodup).pre fun m _ _ _ _ h =>
        ⟨h.2.1, h.2.2, by simp⟩) fun due => ?_
      have hpicked : Stable (cronSpec cron owner w) t fun m =>
          ((due.map Prod.fst).Sublist candidates ∧ ∀ p ∈ due, dueWhere u.now p.2 = true) ∧
            Sweeping cron u t none m ∧ ∀ p ∈ [] ++ due, Picked t p m :=
        (Stable.const _).and (hsweep.and (stable_allPicked _))
      split
      · exact hexit _ hpicked
      · refine Triple.assuming (fun m h => h.1) ?_
        rintro ⟨hsub, hdue⟩
        refine .bind hsound ((triple_fireSchedules hcron hknown (hnodup.sublist hsub) hdue).pre
          fun m _ _ _ _ h => ⟨h.2.1, by simpa using h.2.2⟩) fun r => ?_
        have hfired (r : Except PyError Nat) : Stable (cronSpec cron owner w) t fun m =>
            ∀ n, r = .ok n → Sweeping cron u t none m :=
          Stable.all fun _ => Stable.imp (stable_sweeping _)
        cases r with
        | error err => exact hexit _ (hfired _)
        | ok created =>
            refine .bind hsound (cron_commit (Q := fun _ => True) (hfired _) (Stable.const True)
              (fun m _ h ht => ?_) fun _ _ => trivial) fun _ => hexit _ (Stable.const True)
            have hsame := hknown.same ht
            subst hsame
            exact (h created rfl).publishes

end Fire

end Chronos
