import Chronos.Cron.Spec

namespace Chronos

open Txn (TxId Frame Cell Stable Triple stmt)

variable {cron : CronClock} {owner : ScheduleId → UserId} {w : Sweep} {c : CronCall} {t : TxId}

section Statements

variable {β : Type} {P : Db → Prop}

theorem cron_stmt {st : Txn.Stmt Key Row Time β} {R : β → Db → Prop}
    (hst : Stable (cronSpec cron owner w) t P) (hstR : ∀ r, Stable (cronSpec cron owner w) t (R r))
    (hrun : ∀ m r m', m.WF → CronInv owner m → P m → Txn.exec t st m = some (r, m') →
      CronPermits cron w c t st m → CronGuar cron owner w c t m m' ∧ R r m')
    (hskip : ∀ m r, P m → st.skipped = some r → R r m) :
    Triple (cronSpec cron owner w) c t P (stmt st) R :=
  Triple.stmt hst hstR (fun m r m' hwf hinv _ _ hP he hperm => hrun m r m' hwf hinv hP he hperm)
    (fun m r _ _ _ _ hP hs => hskip m r hP hs) (cronSpec_sound cron owner w)

theorem cron_begin (hst : Stable (cronSpec cron owner w) t P) :
    Triple (cronSpec cron owner w) c t P (stmt .begin) fun now m =>
      (w.tx = some t → c.movesCursor = true → now = w.now) ∧ P m := by
  refine cron_stmt hst (fun _ => (Stable.const _).and hst) (fun m r m' _ _ hP he hperm => ?_)
    (by simp [Txn.Stmt.skipped])
  simp only [Txn.exec, Option.some.injEq, Prod.mk.injEq] at he
  obtain ⟨rfl, rfl⟩ := he
  exact ⟨.refl, fun ht hc => hperm.start ht hc .mk, hP⟩

theorem cron_select {query : Snapshot → β} {R : β → Db → Prop}
    (hst : Stable (cronSpec cron owner w) t P) (hstR : ∀ r, Stable (cronSpec cron owner w) t (R r))
    (h : ∀ m, m.WF → P m → R (query (m.view t)) m) :
    Triple (cronSpec cron owner w) c t P (select query) R := by
  refine cron_stmt hst hstR (fun m r m' hwf _ hP he _ => ?_) (by simp [Txn.Stmt.skipped])
  simp only [Txn.exec, Option.some.injEq, Prod.mk.injEq] at he
  exact he.1 ▸ he.2 ▸ ⟨.refl, h m hwf hP⟩

theorem cron_rollback {Q : Db → Prop} (hst : Stable (cronSpec cron owner w) t P)
    (hstQ : Stable (cronSpec cron owner w) t Q) (h : ∀ m, P m → Q (m.rollback t)) :
    Triple (cronSpec cron owner w) c t P (stmt .rollback) fun _ => Q := by
  refine cron_stmt hst (fun _ => hstQ) (fun m r m' _ _ hP he _ => ?_) (by simp [Txn.Stmt.skipped])
  simp only [Txn.exec, Option.some.injEq, Prod.mk.injEq] at he
  exact he.2 ▸ ⟨.rollback, h m hP⟩

theorem CronGuar.commit {m : Db} (hinv : CronInv owner m)
    (h : w.tx = some t → CronPublishes cron w m (m.commit t) c) :
    CronGuar cron owner w c t m (m.commit t) where
  kept i e hc := by
    cases hp : m.mine t (.job i) with
    | none =>
        refine ⟨e, ?_, rfl⟩
        rw [committedJob, Txn.commit_committed, hp, Option.none_or, ← committedJob, hc]
    | some e' =>
        refine ⟨e', ?_, hinv.content i t e e' hc (Txn.mine_eq_some.mp hp)⟩
        rw [committedJob, Txn.commit_committed, hp, Option.some_or]
  pended i e' hp := absurd hp (m.commit_not_held t (.job i) e')
  schedules id s hs := by
    refine .inl ?_
    rcases hs with hs | ⟨u, hs⟩
    · rw [Txn.commit_committed] at hs
      cases hp : m.mine t (.schedule id) with
      | none => exact .inl (by rwa [hp, Option.none_or] at hs)
      | some r =>
          rw [hp, Option.some_or, Option.some.injEq] at hs
          exact .inr ⟨t, hs ▸ Txn.mine_eq_some.mp hp⟩
    · by_cases hu : u = t
      · exact absurd (hu ▸ hs) (m.commit_not_held t (.schedule id) (some s))
      · exact .inr ⟨u, (((Frame.commit t m).cells _).other hu _).mpr hs⟩
  publishes := h

theorem cron_commit {Q : Db → Prop} (hst : Stable (cronSpec cron owner w) t P)
    (hstQ : Stable (cronSpec cron owner w) t Q)
    (hpub : ∀ m, CronInv owner m → P m → w.tx = some t → CronPublishes cron w m (m.commit t) c)
    (h : ∀ m, P m → Q (m.commit t)) :
    Triple (cronSpec cron owner w) c t P (stmt .commit) fun _ => Q := by
  refine cron_stmt hst (fun _ => hstQ) (fun m r m' _ hinv hP he _ => ?_)
    (by simp [Txn.Stmt.skipped])
  simp only [Txn.exec, Option.some.injEq, Prod.mk.injEq] at he
  exact he.2 ▸ ⟨.commit hinv (hpub m hinv hP), h m hP⟩

end Statements

section Holding

-- `t` has locked nothing.
theorem cron_stable_unlocked : Stable (cronSpec cron owner w) t (Unlocked t) :=
  Stable.all fun k => Stable.all fun v => by
    intro m m' _ _ hi h hp
    exact h (hi.held_iff.mpr hp)

theorem unlocked_after_commit (m : Db) : Unlocked t (m.commit t) := m.commit_not_held t

theorem unlocked_after_rollback (m : Db) : Unlocked t (m.rollback t) := m.rollback_not_held t

-- What `t` has locked of the schedules it leaves as it is, deletes or creates.
def OwnCopies (t : TxId) (m : Db) : Prop :=
  ∀ id r, (m.cell (.schedule id)).pending = some (t, r) →
    ∀ s s', (m.cell (.schedule id)).committed = some (some s) → r = some s' → s' = s

theorem stable_ownCopies : Stable (cronSpec cron owner w) t (OwnCopies t) :=
  Stable.all fun id => Stable.held (V := Row) (Key.schedule id)
    fun committed r => ∀ s s', committed = some (some s) → r = some s' → s' = s

theorem Unlocked.ownCopies {m : Db} (h : Unlocked t m) : OwnCopies t m :=
  fun id r hp => absurd hp (h (.schedule id) r)

theorem OwnCopies.own {m : Db} {k : Key} {v : Row k} {set : Row k → Row k} (h : OwnCopies t m)
    (hseen : (m.cell k).seen t = some v) (hset : KeepsRow k set) :
    OwnCopies t (m.own t k (set v)) := by
  intro id r hp s s' hc hr
  rw [Txn.Store.own_committed] at hc
  by_cases hk : Key.schedule id = k
  · subst hk
    rw [Txn.Store.own_cell_self, Option.some.injEq, Prod.mk.injEq] at hp
    obtain ⟨-, hp⟩ := hp
    rcases hset v with heq | hnone
    · have hv : v = some s' := heq.symm.trans (hp.trans hr)
      by_cases hheld : ∃ u, (m.cell (.schedule id)).pending = some (t, u)
      · obtain ⟨u, hu⟩ := hheld
        rw [Cell.seen_of_held hu, Option.some.injEq] at hseen
        exact h id u hu s s' hc (hseen.trans hv)
      · have hfree := Txn.mine_eq_none.mpr fun v hv => hheld ⟨v, hv⟩
        rw [Txn.seen_of_not_mine hfree, hc, Option.some.injEq] at hseen
        exact Option.some.inj (hv.symm.trans hseen.symm)
    · rw [hnone] at hp
      rw [hr] at hp
      cases hp
  · rw [Txn.Store.own_cell_ne t k _ m hk] at hp
    exact h id r hp s s' hc hr

theorem OwnCopies.insert {m : Db} {k : Key} {v : Row k} (h : OwnCopies t m) (hwf : m.WF)
    (hk : k ∉ m.keys) : OwnCopies t (m.insert t k v) := by
  intro id r hp s s' hc hr
  rw [Txn.Store.insert_cell] at hp hc
  rw [Txn.Store.own_committed] at hc
  by_cases heq : Key.schedule id = k
  · subst heq
    rw [hwf.absent _ hk] at hc
    cases hc
  · rw [Txn.Store.own_cell_ne t k _ m heq] at hp
    exact h id r hp s s' hc hr

-- A schedule whose row is published as `OwnCopies` has it.
theorem OwnCopies.publishes {m : Db} (h : OwnCopies t m) {id : ScheduleId} {s s' : Schedule}
    (hs : committedSchedule m id = some s) (hs' : committedSchedule (m.commit t) id = some s') :
    s' = s := by
  rw [committedSchedule, Option.join_eq_some_iff] at hs hs'
  rw [Txn.commit_committed] at hs'
  cases hp : m.mine t (.schedule id) with
  | none =>
      rw [hp, Option.none_or, hs] at hs'
      exact (Option.some.inj (Option.some.inj hs')).symm
  | some r =>
      rw [hp, Option.some_or, Option.some.injEq] at hs'
      exact h id r (Txn.mine_eq_some.mp hp) s s' hs hs'

end Holding

-- One statement of a call that is neither a sweep nor a PATCH.
theorem triple_keeps {β : Type} {st : Txn.Stmt Key Row Time β} (hc : c.movesCursor = false)
    (hk : Keeps owner st) :
    Triple (cronSpec cron owner w) c t (OwnCopies t) (stmt st) fun _ => OwnCopies t := by
  refine cron_stmt stable_ownCopies (fun _ => stable_ownCopies)
    (fun m r m' hwf hinv hP he _ => ?_) fun m r hP _ => hP
  cases st with
  | begin =>
      simp only [Txn.exec, Option.some.injEq, Prod.mk.injEq] at he
      exact he.2 ▸ ⟨.refl, hP⟩
  | select query =>
      simp only [Txn.exec, Option.some.injEq, Prod.mk.injEq] at he
      exact he.2 ▸ ⟨.refl, hP⟩
  | lock k cond =>
      rcases Txn.exec_lock he with ⟨-, rfl⟩ | ⟨v, hseen, -, rfl, -⟩
      · exact ⟨.refl, hP⟩
      · exact ⟨.own (ownOk_of_seen hseen (keepsRow_id k)), hP.own hseen (keepsRow_id k)⟩
  | update k cond set =>
      rcases Txn.exec_update he with ⟨-, rfl, -⟩ | ⟨v, hseen, -, -, -, rfl⟩
      · exact ⟨.refl, hP⟩
      · exact ⟨.own (ownOk_of_seen hseen hk), hP.own hseen hk⟩
  | recheck k cond set =>
      rcases Txn.exec_recheck he with ⟨-, rfl, -⟩ | ⟨v, hseen, -, ⟨-, -, rfl⟩ | ⟨-, -, rfl⟩⟩
      · exact ⟨.refl, hP⟩
      · exact ⟨.own (ownOk_of_seen hseen (keepsRow_id k)), hP.own hseen (keepsRow_id k)⟩
      · exact ⟨.own (ownOk_of_seen hseen hk), hP.own hseen hk⟩
  | write k set =>
      rcases Txn.exec_write he with ⟨-, rfl, -⟩ | ⟨v, hp, -, rfl⟩
      · exact ⟨.refl, hP⟩
      · have hseen := Cell.seen_of_held hp
        exact ⟨.own (ownOk_of_seen hseen hk), hP.own hseen hk⟩
  | insert k row clash =>
      obtain ⟨hfresh, ⟨-, rfl, -⟩ | ⟨-, rfl, hclashes, hwaits⟩⟩ := Txn.exec_insert he
      · exact ⟨.refl, hP⟩
      · refine ⟨?_, hP.insert hwf hfresh⟩
        cases k with
        | job i =>
            rw [show clash = uqJobsOwnerIdempotency row.job from hk] at hclashes hwaits
            exact .insert_job hwf hinv hfresh hclashes hwaits
        | schedule id =>
            refine .insert_other fun s hs => .inr ?_
            have hrow : row.all fun s => s.id = id ∧ s.ownerId = owner id := hk
            rw [hs] at hrow
            simpa using hrow
        | _ => exact .insert_other trivial
  | commit =>
      simp only [Txn.exec, Option.some.injEq, Prod.mk.injEq] at he
      refine he.2 ▸ ⟨.commit hinv fun _ => ?_, (unlocked_after_commit m).ownCopies⟩
      have hother : ∀ id s s', committedSchedule m id = some s →
          committedSchedule (m.commit t) id = some s' → s' = s := fun id s s' => hP.publishes
      unfold CronPublishes
      split
      · cases hc
      · cases hc
      · exact hother
  | rollback =>
      simp only [Txn.exec, Option.some.injEq, Prod.mk.injEq] at he
      exact he.2 ▸ ⟨.rollback, (unlocked_after_rollback m).ownCopies⟩

theorem triple_of_keeps {α : Type} {p : Tx α} (hc : c.movesCursor = false)
    (h : p.All (Keeps owner)) :
    Triple (cronSpec cron owner w) c t (OwnCopies t) p fun _ => OwnCopies t := by
  induction p with
  | pure a => exact .pure stable_ownCopies fun m hm => hm
  | op st next ih =>
      exact .bind (cronSpec_sound cron owner w) (triple_keeps hc h.1) fun r => ih r (h.2 r)

end Chronos
