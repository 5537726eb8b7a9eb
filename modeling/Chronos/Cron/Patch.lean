import Chronos.Cron.Sweeps
import Chronos.Services.Updates

namespace Chronos

open Txn (TxId Stable Triple stmt)
open ScheduleService (movedCursor changes changes_keeps)

variable {cron : CronClock} {owner : ScheduleId → UserId} {w : Sweep} {t : TxId} {user : SessionUser}
  {scheduleId : ScheduleId} {fields : List ScheduleField} {loaded s : Schedule} {now : Time}
  {cursor : Option Time}

theorem changes_id : (changes loaded fields cursor s).id = s.id := by
  refine changes_keeps (fun s' => s'.id = s.id) ?_ fun _ _ h => h
  exact (sameSchedule_apply _ s).id

theorem changes_ownerId : (changes loaded fields cursor s).ownerId = s.ownerId := by
  refine changes_keeps (fun s' => s'.ownerId = s.ownerId) ?_ fun _ _ h => h
  exact (sameSchedule_apply _ s).ownerId

theorem changes_nextRunAt : (changes loaded fields none s).nextRunAt = s.nextRunAt :=
  (sameSchedule_apply _ s).nextRunAt

-- The cursor stays where it is unless the body sends cron_expr or resumes the schedule.
theorem movedCursor_none (h : fields.any ScheduleField.moves = false)
    (hcursor : movedCursor cron loaded fields now = .ok cursor) : cursor = none := by
  rw [movedCursor, if_neg (by simp [h])] at hcursor
  exact (Except.ok.inj hcursor).symm

-- The schedule row a PATCH holds, with what is known of it as committed.
def Patched (t : TxId) (D : Schedule → Schedule → Prop) (m : Db) : Prop :=
  ∀ id r, (m.cell (.schedule id)).pending = some (t, r) →
    ∃ s s', (m.cell (.schedule id)).committed = some (some s) ∧ r = some s' ∧ D s s'

variable {D : Schedule → Schedule → Prop}

theorem stable_patched : Stable (cronSpec cron owner w) t (Patched t D) :=
  Stable.all fun id => Stable.held (V := Row) (Key.schedule id)
    fun committed r => ∃ s s', committed = some (some s) ∧ r = some s' ∧ D s s'

theorem Unlocked.patched {m : Db} (h : Unlocked t m) : Patched t D m :=
  fun id r hp => absurd hp (h (.schedule id) r)

theorem Patched.published {m : Db} (h : Patched t D m) {id : ScheduleId} {s s' : Schedule}
    (hs : committedSchedule m id = some s) (hs' : committedSchedule (m.commit t) id = some s') :
    s' = s ∨ D s s' := by
  rw [committedSchedule, Option.join_eq_some_iff] at hs hs'
  rw [Txn.Store.commit_seen] at hs'
  cases hp : m.mine t (.schedule id) with
  | none =>
      rw [Txn.seen_of_not_mine hp, hs] at hs'
      exact .inl (Option.some.inj (Option.some.inj hs')).symm
  | some r =>
      rw [Txn.seen_of_mine hp] at hs'
      obtain ⟨s₀, s₁, hc, rfl, hD⟩ := h id r (Txn.mine_eq_some.mp hp)
      obtain rfl : s₀ = s := Option.some.inj (Option.some.inj (hc.symm.trans hs))
      obtain rfl : s₁ = s' := Option.some.inj (Option.some.inj hs')
      exact .inr hD

-- What a PATCH does to the row it holds.
def PatchOk (w : Sweep) (t : TxId) (fields : List ScheduleField) (s s' : Schedule) : Prop :=
  w.tx = some t → w.strict → MovesDue w s s' → changesExpr fields s = true

theorem triple_updateRow (hcursor : movedCursor cron loaded fields now = .ok cursor) :
    Triple (cronSpec cron owner w) (.request user (.updateSchedule scheduleId fields)) t (Unlocked t)
      (updateSchedule scheduleId fun s => some (changes loaded fields cursor s))
      fun _ => Patched t (PatchOk w t fields) := by
  refine cron_stmt cron_stable_unlocked (fun _ => stable_patched) (fun m r m' _ hinv h he hperm => ?_)
    (by simp [Txn.Stmt.skipped])
  rcases Txn.exec_update he with ⟨-, rfl, -⟩ | ⟨v, hseen, hsome, -, -, rfl⟩
  · exact ⟨.refl, h.patched⟩
  · obtain ⟨s, rfl⟩ := Option.isSome_iff_exists.mp hsome
    have hcommitted : (m.cell (.schedule scheduleId)).committed = some (some s) := by
      rwa [Txn.seen_of_not_mine (Txn.mine_eq_none.mpr (h (.schedule scheduleId)))] at hseen
    have hrow := hinv.schedules scheduleId s (.inl hcommitted)
    refine ⟨.own fun s' hs' => .inr ?_, fun id r hp => ?_⟩
    · obtain rfl := Option.some.inj hs'
      exact ⟨changes_id.trans hrow.1, changes_ownerId.trans hrow.2⟩
    · rw [Txn.Store.own_committed]
      by_cases heq : id = scheduleId
      · subst heq
        rw [Txn.Store.own_cell_self, Option.some.injEq, Prod.mk.injEq] at hp
        refine ⟨s, _, hcommitted, hp.2.symm, fun ht hstrict hmoves => ?_⟩
        by_cases hmove : fields.any ScheduleField.moves = true
        · exact hperm.patch hstrict ht user id fields rfl id (.mk _ _) s hseen hmoves.due hmove
        · rw [Bool.not_eq_true] at hmove
          obtain rfl := movedCursor_none hmove hcursor
          have hpast := hmoves.past
          rw [changes_nextRunAt] at hpast
          exact absurd hpast (lt_irrefl _)
      · rw [Txn.Store.own_cell_ne t _ _ m (by simpa using heq)] at hp
        exact absurd hp (h (.schedule id) r)

theorem triple_updateSchedule :
    Triple (cronSpec cron owner w) (.request user (.updateSchedule scheduleId fields)) t (Unlocked t)
      (ScheduleService.update cron user scheduleId fields) fun _ _ => True := by
  have hsound := cronSpec_sound cron owner w
  have hexit {β : Type} (a : β) {P : Db → Prop} (hst : Stable (cronSpec cron owner w) t P) :
      Triple (cronSpec cron owner w) (.request user (.updateSchedule scheduleId fields)) t P
        (stmt .rollback >>= fun _ => pure a : Tx β) fun _ _ => True :=
    .bind hsound (cron_rollback (Q := fun _ => True) hst (Stable.const True) fun _ _ => trivial)
      fun _ => .pure (Stable.const True) fun _ _ => trivial
  have hcommit {β : Type} (a : β) :
      Triple (cronSpec cron owner w) (.request user (.updateSchedule scheduleId fields)) t
        (Patched t (PatchOk w t fields))
        (stmt .commit >>= fun _ => stmt .rollback >>= fun _ => pure a : Tx β) fun _ _ => True := by
    refine .bind hsound (cron_commit (Q := fun _ => True) stable_patched (Stable.const True)
      (fun m _ h ht => ?_) fun _ _ => trivial) fun _ => hexit a (Stable.const True)
    intro id s s' hs hs' hstrict hmoves
    rcases h.published hs hs' with rfl | hok
    · exact absurd hmoves.past (lt_irrefl _)
    · exact hok ht hstrict hmoves
  have hget : Triple (cronSpec cron owner w) (.request user (.updateSchedule scheduleId fields)) t
      (Unlocked t) (ScheduleService.get user scheduleId) fun _ => Unlocked t := by
    refine .bind hsound (cron_select cron_stable_unlocked (fun _ => cron_stable_unlocked)
      fun m _ h => h) fun s => ?_
    cases s <;> exact .pure cron_stable_unlocked fun m h => h
  refine .bind hsound ((cron_begin cron_stable_unlocked).post fun _ m h => h.2) fun now =>
    .bind hsound hget fun row => ?_
  cases row with
  | error err => exact hexit _ cron_stable_unlocked
  | ok loaded =>
      dsimp only
      split
      · exact hexit _ cron_stable_unlocked
      · rename_i cursor hcursor
        split
        · exact hexit _ cron_stable_unlocked
        · split
          · exact (hcommit _).pre fun m _ _ _ _ h => h.patched
          · refine .bind hsound (triple_updateRow hcursor) fun updated => ?_
            cases updated with
            | none => exact hexit _ stable_patched
            | some _ => exact hcommit _

-- Every call keeps its guarantee, whatever runs besides it.
theorem triple_cronCall (hcron : cron.Increases) {c : CronCall} (hmay : mayFire owner c = true) :
    Triple (cronSpec cron owner w) c t (Unlocked t) (c.body cron t) fun _ _ => True := by
  have hsound := cronSpec_sound cron owner w
  by_cases hc : c.movesCursor = false
  · exact ((triple_of_keeps hc (keeps_body cron t hmay hc)).pre fun m _ _ _ _ h =>
      h.ownCopies).post fun _ _ _ => trivial
  · cases c with
    | sweep ids rank =>
        exact .bind hsound (triple_materializeSchedulesOnce hcron) fun _ =>
          .pure (Stable.const True) fun _ _ => trivial
    | request user r =>
        cases r with
        | updateSchedule scheduleId fields =>
            exact .bind hsound (.bind hsound triple_updateSchedule fun _ =>
              .pure (Stable.const True) fun _ _ => trivial) fun _ =>
                .pure (Stable.const True) fun _ _ => trivial
        | _ => exact absurd rfl hc
    | call c => exact absurd rfl hc

theorem cronSpec_valid (hcron : cron.Increases) :
    (cronSpec cron owner w).Valid (cronSystem cron owner) where
  sound := cronSpec_sound cron owner w
  environment m m' _ hinv _ henv _ := hinv.of_cells henv.cell
  abort c t m _ _ := .rollback
  start s t c h hfresh hmay _ hinv ha := by
    have hwf : (s.mem.openTx t).WF := ⟨h.wf.nodup, h.wf.absent⟩
    exact triple_cronCall hcron hmay _ hwf hinv ha List.mem_cons_self
      fun k v hp => hfresh (h.held k t v hp)

end Chronos
