import Chronos.Txn.Rows
import Chronos.Api.Routers

namespace Chronos

open Txn (TxId Reaches Rules)

-- A PATCH /users/{target}/role.
structure RoleCall where
  caller : UserId
  target : UserId
  role : UserRole

def RoleCall.body (cron : CronClock) (t : TxId) (c : RoleCall) : Tx Response :=
  Request.body cron t c.caller (.updateRole c.target c.role)

-- Any number of requests to change roles.
def roleSystem (cron : CronClock) : Txn.System Key Row Time RoleCall Response :=
  ⟨fun _ _ => true, RoleCall.body cron⟩

abbrev RoleState := Txn.Pool Key Row Time RoleCall Response

def committedUser (m : Db) (id : UserId) : Option User := (m.cell (.user id)).committed

def HasOwner (org : OrgId) (m : Db) : Prop :=
  ∃ id user, committedUser m id = some user ∧ user.orgId = org ∧ user.role = .owner

-- A COMMIT that takes OWNER from its target is that of a caller who is OWNER himself.
def demotedByOwner (s : RoleState) : Txn.Event Time RoleCall → Bool
  | .run t =>
      match s.thread t with
      | some ⟨c, some (.op .commit _)⟩ =>
          match (s.mem.cell (.user c.target)).pending with
          | some (u, p) => u ≠ t || p.role = .owner ||
              !((committedUser s.mem c.target).any fun user => user.role = .owner) ||
              (committedUser s.mem c.caller).any fun user => user.role = .owner
          | none => true
      | _ => true
  | _ => true

-- Users stay in their organization; a request changes the role of another user of the caller's.
def roleRules (m : Db) : Rules Key Row RoleCall where
  ok
    | .user id, user => (committedUser m id).map User.orgId = some user.orgId
    | _, _ => True
  rel _ c
    | .user id, base, user => c.target = id ∧ c.caller ≠ id ∧
        (committedUser m c.caller).map User.orgId = some user.orgId ∧
          ∃ old, base = some old ∧ user = { old with role := c.role }
    | _, _, _ => False
  waits _ _ _ _ := True
  present _ _ := False

section Rules

variable {m : Db} {t : TxId} {c : RoleCall}

theorem within_rollback_return {α : Type} {r : α} {held : Txn.Locks Key} :
    (do Txn.stmt .rollback; return r : Tx α).Within (roleRules m) t c (fun _ _ => True) held :=
  ⟨trivial, fun _ _ => trivial⟩

theorem within_updateRole (user : SessionUser) {held : Txn.Locks Key}
    (hcaller : (committedUser m c.caller).map User.orgId = some user.orgId)
    (hid : user.id = c.caller) :
    (Request.updateRoleOf user c.target c.role).Within (roleRules m) t c (fun _ _ => True) held := by
  unfold Request.updateRoleOf
  by_cases hself : c.target = user.id
  · rw [if_pos hself]
    trivial
  · rw [if_neg hself]
    refine .stmt ⟨trivial, fun base old hbase hok horg => ?_⟩ fun r _ => ?_
    · have horg' : old.orgId = user.orgId := of_decide_eq_true horg
      refine ⟨hok, rfl, fun heq => hself (heq.symm.trans hid.symm), ?_⟩
      rcases hbase with rfl | ⟨-, -, -, older, rfl, rfl⟩
      · exact ⟨by rw [hcaller, ← horg'], old, rfl, rfl⟩
      · exact ⟨by rw [hcaller, ← horg'], older, rfl, rfl⟩
    · cases r with
      | none => exact within_rollback_return
      | some updated => exact ⟨trivial, fun _ _ => within_rollback_return⟩

theorem within_roleCall (cron : CronClock) :
    (c.body cron t).Within (roleRules m) t c (fun _ _ => True) .none := by
  refine .stmt trivial fun now _ => .stmt trivial fun found hfound => ?_
  obtain ⟨v, hok, rfl⟩ := hfound
  dsimp only
  split
  · exact within_rollback_return
  · rename_i user huser
    split
    · exact within_rollback_return
    · have hcaller : (committedUser m c.caller).map User.orgId = some user.orgId :=
        hok (.user c.caller) user huser
      exact (within_updateRole ⟨c.caller, user.orgId, true⟩ hcaller rfl).bind
        fun _ _ _ => trivial

end Rules

-- What is left of the requests when the state is one that some run of them has led to.
theorem ruled_of_roles {cron : CronClock} {m : Db} {s : RoleState} (hwf : m.WF)
    (hfree : ∀ k, (m.cell k).pending = none)
    {ok : RoleState → Txn.Event Time RoleCall → RoleState → Prop}
    (h : Reaches (roleSystem cron).step ok (Txn.Pool.init m) s) : Txn.Ruled (roleRules m) s := by
  refine .of_reaches (.init hwf ?_ hfree) (fun _ _ _ _ => ⟨fun _ hk => hk.elim, within_roleCall cron⟩) h
  intro k v hv
  cases k with
  | user id => exact congrArg (Option.map User.orgId) hv
  | _ => trivial

section Step

variable {cron : CronClock} {m : Db} {s s' : RoleState} {ev : Txn.Event Time RoleCall}

-- The row of a user is changed by a request with that target, which changes no other row.
theorem role_change (hruled : Txn.Ruled (roleRules m) s)
    (hstep : (roleSystem cron).step s ev = some s') {id : UserId} {user : User}
    (huser : committedUser s.mem id = some user) (hne : committedUser s'.mem id ≠ some user) :
    ∃ t c next, ev = .run t ∧ s.thread t = some ⟨c, some (.op .commit next)⟩ ∧ c.target = id ∧
      c.caller ≠ id ∧ (committedUser m c.caller).map User.orgId = some user.orgId ∧
      (s.mem.cell (.user id)).pending = some (t, { user with role := c.role }) ∧
      committedUser s'.mem id = some { user with role := c.role } := by
  have hchange : (s'.mem.cell (.user id)).committed ≠ (s.mem.cell (.user id)).committed :=
    fun heq => hne (heq.trans huser)
  obtain ⟨t, c, next, v, hev, ht, -, hp, hv, -, htarget, hcaller, horg, old, hold, rfl⟩ :=
    hruled.publication hstep hchange
  obtain rfl : user = old := Option.some.inj (huser.symm.trans hold)
  exact ⟨t, c, next, hev, ht, htarget, hcaller, horg, hp, hv⟩

theorem hasOwner_of_step (hruled : Txn.Ruled (roleRules m) s)
    (hstep : (roleSystem cron).step s ev = some s') (hdemoted : demotedByOwner s ev = true)
    {org : OrgId} (h : HasOwner org s.mem) : HasOwner org s'.mem := by
  obtain ⟨id, user, huser, horg, hrole⟩ := h
  by_cases hsame : committedUser s'.mem id = some user
  · exact ⟨id, user, hsame, horg, hrole⟩
  obtain ⟨t, c, next, rfl, ht, rfl, hcaller, hcallerOrg, hp, hafter⟩ :=
    role_change hruled hstep huser hsame
  simp only [demotedByOwner, ht, hp, huser, Option.any_some, hrole, decide_true, Bool.not_true,
    ne_eq, not_true_eq_false, decide_false, Bool.false_or, Bool.or_false, Bool.or_eq_true,
    decide_eq_true_eq] at hdemoted
  rcases hdemoted with howner | hany
  · exact ⟨c.target, _, hafter, horg, howner⟩
  · -- The caller is another owner, whose row this commit leaves alone.
    obtain ⟨boss, hboss, hbossRole⟩ := (Option.any_eq_true _ _).mp hany
    have hbossOrg : (committedUser m c.caller).map User.orgId = some boss.orgId :=
      hruled.rows.committed (.user c.caller) boss hboss
    have hkept : committedUser s'.mem c.caller = some boss := by
      by_contra hne
      obtain ⟨u, d, next', hev, hu, htarget, -⟩ := role_change hruled hstep hboss hne
      cases hev
      rw [ht] at hu
      cases hu
      exact hcaller htarget.symm
    refine ⟨c.caller, boss, hkept, ?_, of_decide_eq_true hbossRole⟩
    rw [hbossOrg, Option.some.injEq] at hcallerOrg
    exact hcallerOrg.trans horg

end Step

-- Whatever requests are at work, an organization with an owner keeps one as long as no request
-- demotes an owner after its caller has been demoted.
theorem keeps_an_owner (cron : CronClock) (org : OrgId) {m : Db} (hwf : m.WF)
    (hfree : ∀ k, (m.cell k).pending = none) {s s' : RoleState}
    (hs : (roleSystem cron).Reachable m s)
    (h : Reaches (roleSystem cron).step (fun s ev _ => demotedByOwner s ev = true) s s')
    (howner : HasOwner org s.mem) : HasOwner org s'.mem := by
  refine h.invariant (P := fun s' => HasOwner org s'.mem) howner ?_
  intro s₁ ev s₂ hs₁ howner₁ hstep hdemoted
  have hreach : (roleSystem cron).Reachable m s₁ := hs.trans (hs₁.mono fun _ _ _ _ => trivial)
  exact hasOwner_of_step (ruled_of_roles hwf hfree hreach) hstep hdemoted howner₁

section Example

-- Two owners of one organization.
def ownersDb : Db where
  keys := [.user 1, .user 2]
  cell
    | .user 1 => ⟨some ⟨1, 0, "ann@example.org", .owner, 0⟩, none⟩
    | .user 2 => ⟨some ⟨2, 0, "bob@example.org", .owner, 0⟩, none⟩
    | _ => .empty
  clock := 0
  opened := []

theorem ownersDb_wf : ownersDb.WF where
  nodup := by simp [ownersDb]
  absent k hk := by
    simp only [ownersDb, List.mem_cons, List.not_mem_nil, or_false, not_or] at hk
    unfold ownersDb
    dsimp only
    split
    · exact absurd rfl hk.1
    · exact absurd rfl hk.2
    · rfl

theorem ownersDb_unlocked (k : Key) : (ownersDb.cell k).pending = none := by
  unfold ownersDb
  dsimp only
  split <;> rfl

def ownersAfter (check : RoleState → Txn.Event Time RoleCall → Bool)
    (events : List (Txn.Event Time RoleCall)) : RoleState :=
  (Txn.runAll (roleSystem exampleCron).step (fun s ev _ => check s ev) (Txn.Pool.init ownersDb)
    events).getD (Txn.Pool.init ownersDb)

theorem reaches_ownersAfter (check : RoleState → Txn.Event Time RoleCall → Bool)
    (events : List (Txn.Event Time RoleCall)) :
    Reaches (roleSystem exampleCron).step (fun s ev _ => check s ev = true)
      (Txn.Pool.init ownersDb) (ownersAfter check events) :=
  Reaches.getD_runAll (fun s ev _ => check s ev) events

-- Each owner is loaded as one before the other demotes him.
def crossedDemotions : List (Txn.Event Time RoleCall) :=
  [.start 1 ⟨1, 2, .member⟩, .start 2 ⟨2, 1, .member⟩, .run 1, .run 1, .run 2, .run 2,
    .run 1, .run 1, .run 2, .run 2]

theorem owners_demote_each_other :
    ¬ ∀ (cron : CronClock) (org : OrgId) (m : Db), m.WF → (∀ k, (m.cell k).pending = none) →
      ∀ s s', (roleSystem cron).Reachable m s →
        Reaches (roleSystem cron).step (fun _ _ _ => True) s s' → HasOwner org s.mem →
          HasOwner org s'.mem := by
  intro h
  have hkeys : (ownersAfter (fun _ _ => true) crossedDemotions).mem.keys = [.user 1, .user 2] := by
    decide +kernel
  have hlost : ([1, 2].all fun id => (committedUser (ownersAfter (fun _ _ => true)
      crossedDemotions).mem id).any fun user => user.role = .member) = true := by decide +kernel
  have hreach : (roleSystem exampleCron).Reachable ownersDb
      (ownersAfter (fun _ _ => true) crossedDemotions) :=
    (reaches_ownersAfter _ crossedDemotions).mono fun _ _ _ _ => trivial
  obtain ⟨id, user, huser, -, hrole⟩ := h exampleCron 0 ownersDb ownersDb_wf ownersDb_unlocked _ _
    .refl hreach ⟨1, _, rfl, rfl, rfl⟩
  have hkey := (ruled_of_roles ownersDb_wf ownersDb_unlocked hreach).wf.mem_of_committed huser
  rw [hkeys] at hkey
  have hid : id ∈ [1, 2] := by simpa using hkey
  have hmember := List.all_eq_true.mp hlost id hid
  rw [huser, Option.any_some, decide_eq_true_eq, hrole] at hmember
  cases hmember

-- One demotion after the other: the second caller is an owner no more, and is turned away.
def serialDemotions : List (Txn.Event Time RoleCall) :=
  [.start 1 ⟨1, 2, .member⟩, .run 1, .run 1, .run 1, .run 1, .run 1,
    .start 2 ⟨2, 1, .member⟩, .run 2, .run 2, .run 2]

theorem keeps_an_owner_serial :
    (committedUser (ownersAfter demotedByOwner serialDemotions).mem 2).map User.role =
      some .member ∧ HasOwner 0 (ownersAfter demotedByOwner serialDemotions).mem :=
  ⟨by decide +kernel, keeps_an_owner exampleCron 0 ownersDb_wf ownersDb_unlocked .refl
    (reaches_ownersAfter demotedByOwner serialDemotions) ⟨1, _, rfl, rfl, rfl⟩⟩

end Example

end Chronos
