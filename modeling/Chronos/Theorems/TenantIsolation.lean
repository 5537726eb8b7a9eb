import Chronos.Refinement.Checks
import Chronos.Tenancy.Requests

namespace Chronos

open Txn (TxId)

-- A user calls a service, past get_current_user and require_role.
structure ServiceCall where
  tx : TxId
  now : Time
  user : SessionUser
  request : Request

-- The calls are served one after the other.
def perform (cron : CronClock) : List ServiceCall → Db → Option (List Response × Db)
  | [], m => some ([], m)
  | c :: calls, m =>
      ((c.request.handle cron c.tx c.user).run c.tx { m with clock := c.now }).bind
        fun (response, m') =>
          (perform cron calls m').map fun (responses, m'') => (response :: responses, m'')

variable {tenant : Key → OrgId} {a b : OrgId} {c : ServiceCall} {calls : List ServiceCall}
variable {m m₁ m₂ : Db}

-- The user is one of the organization, and so are the ids that are handed out for the call.
structure ServiceCall.By (tenant : Key → OrgId) (b : OrgId) (c : ServiceCall) : Prop where
  org : c.user.orgId = b
  user : tenant (.user c.user.id) = b
  fresh : ∀ k ∈ c.request.creates, tenant k = b

-- The database holds rows of their organizations only, and the calls hold none of its locks.
structure Tenanted (tenant : Key → OrgId) (calls : List ServiceCall) (m : Db) : Prop where
  respected : (tenants tenant).Respected m
  idle : ∀ c ∈ calls, m.Idle c.tx

-- What two runs of the same calls leave.
structure Performed (tenant : Key → OrgId) (a : OrgId) (m₁ m₂ : Db)
    (r₁ r₂ : List Response × Db) : Prop where
  same : r₁.1 = r₂.1
  respected : (tenants tenant).Respected r₁.2
  kept : (tenants tenant).Kept a m₁ r₁.2

theorem perform_performed (cron : CronClock) (hab : a ≠ b) (hcalls : ∀ c ∈ calls, c.By tenant b)
    (hdiffer : (tenants tenant).Differ a m₁ m₂)
    (h₁ : (tenants tenant).Respected m₁) (h₂ : (tenants tenant).Respected m₂)
    (hfree : ∀ c ∈ calls, ∀ k, tenant k = a → ∀ v,
      (m₁.cell k).pending ≠ some (c.tx, v) ∧ (m₂.cell k).pending ≠ some (c.tx, v)) :
    Option.Rel (Performed tenant a m₁ m₂) (perform cron calls m₁) (perform cron calls m₂) := by
  induction calls generalizing m₁ m₂ with
  | nil => exact .some ⟨rfl, h₁, .refl m₁⟩
  | cons c calls ih =>
      rw [List.forall_mem_cons] at hcalls hfree
      obtain ⟨hc, hcalls⟩ := hcalls
      obtain ⟨hheld, hfree⟩ := hfree
      have htwins : (tenants tenant).Twins a c.tx { m₁ with clock := c.now }
          { m₂ with clock := c.now } :=
        ⟨⟨hdiffer.keys, hdiffer.cell, rfl⟩, ⟨⟨h₁.committed, h₁.pending⟩, fun k hk v => (hheld k hk v).1⟩,
          ⟨⟨h₂.committed, h₂.pending⟩, fun k hk v => (hheld k hk v).2⟩⟩
      have hends := confined_handle cron c.tx hc.org hc.user hc.fresh a hab _ _ htwins
      simp only [perform]
      revert hends
      generalize (c.request.handle cron c.tx c.user).run c.tx { m₁ with clock := c.now } = o₁
      generalize (c.request.handle cron c.tx c.user).run c.tx { m₂ with clock := c.now } = o₂
      intro hends
      cases hends with
      | none => exact .none
      | @some r₁ r₂ hend =>
          have hrest := ih hcalls hend.twins.differ hend.twins.left.toRespected
            hend.twins.right.toRespected fun c' hc' k hk v => by
              rw [hend.left k hk, hend.right k hk]
              exact hfree c' hc' k hk v
          simp only [Option.bind_some]
          revert hrest
          generalize perform cron calls r₁.2 = o₁
          generalize perform cron calls r₂.2 = o₂
          intro hrest
          cases hrest with
          | none => exact .none
          | some hrest => exact .some ⟨congrArg₂ List.cons hend.same hrest.same, hrest.respected,
              hend.left.trans hrest.kept⟩

-- No row of an organization is changed by calls of the users of another, and none makes a
-- difference to what they return.
theorem tenant_isolation (cron : CronClock) (hab : a ≠ b) (hcalls : ∀ c ∈ calls, c.By tenant b) :
    (∀ m responses m', Tenanted tenant calls m → perform cron calls m = some (responses, m') →
      (tenants tenant).Respected m' ∧ ∀ k, tenant k = a → m'.cell k = m.cell k) ∧
    ∀ m₁ m₂, Tenanted tenant calls m₁ → Tenanted tenant calls m₂ → (tenants tenant).Differ a m₁ m₂ →
      (perform cron calls m₁).map Prod.fst = (perform cron calls m₂).map Prod.fst := by
  have hboth : ∀ m₁ m₂, Tenanted tenant calls m₁ → Tenanted tenant calls m₂ →
      (tenants tenant).Differ a m₁ m₂ →
        Option.Rel (Performed tenant a m₁ m₂) (perform cron calls m₁) (perform cron calls m₂) :=
    fun m₁ m₂ h₁ h₂ hdiffer => perform_performed cron hab hcalls hdiffer h₁.respected h₂.respected
      fun c hc k _ v => ⟨h₁.idle c hc k v, h₂.idle c hc k v⟩
  refine ⟨fun m responses m' hm hrun => ?_, fun m₁ m₂ h₁ h₂ hdiffer => ?_⟩
  · have hrel := hboth m m hm hm (.refl m)
    rw [hrun] at hrel
    cases hrel with
    | some hend => exact ⟨hend.respected, hend.kept⟩
  · have hrel := hboth m₁ m₂ h₁ h₂ hdiffer
    revert hrel
    generalize perform cron calls m₁ = o₁
    generalize perform cron calls m₂ = o₂
    intro hrel
    cases hrel with
    | none => rfl
    | some hend => exact congrArg some hend.same

section Example

-- Organization 1 has a project of the given name and a job, if any; organization 2 a project and
-- user 2.
def twoTenants (name : String) (job : Option JobEntry) : Db where
  keys := [.project 1, .job 1, .project 2, .user 2]
  cell
    | .project 1 => ⟨some { id := 1, orgId := 1, name := name, createdAt := 0 }, none⟩
    | .job 1 => ⟨job, none⟩
    | .project 2 => ⟨some { id := 2, orgId := 2, name := "main", createdAt := 0 }, none⟩
    | .user 2 => ⟨some { id := 2, orgId := 2, email := "", role := .owner, createdAt := 0 }, none⟩
    | _ => .empty
  clock := 0
  opened := []

def exampleTenant : Key → OrgId
  | .project 2 => 2
  | .user 2 => 2
  | .job 7 => 2
  | .queue 8 => 2
  | _ => 1

def tenantJob : JobEntry where
  job := { JobService.buildJob 1 1 (Queue.fresh 1 1 "default") (exampleBody (some "order-1") [])
    none 0 with status := .dead }
  attempts := []
  dependsOn := []
  log := []

-- User 2 reuses the key of the job of organization 1, asks for that job, and tries to requeue it.
def tenantCalls : List ServiceCall :=
  [⟨1, 10, ⟨2, 2, true⟩, .createJob (exampleBody (some "order-1") []) none ⟨7, 8, 9⟩⟩,
    ⟨2, 20, ⟨2, 2, true⟩, .getJob 1⟩, ⟨3, 30, ⟨2, 2, true⟩, .requeueDeadJob 1⟩,
    ⟨4, 40, ⟨2, 2, true⟩, .listJobs ⟨none, none, none⟩ 50 0⟩]

theorem twoTenants_unlocked (name : String) (job : Option JobEntry) (k : Key) :
    ((twoTenants name job).cell k).pending = none := by
  unfold twoTenants
  dsimp only
  split <;> rfl

theorem twoTenants_tenanted (name : String) {job : Option JobEntry}
    (hjob : ∀ e, job = some e → e.job.ownerId = 1 ∧ e.job.queueId = 1) :
    Tenanted exampleTenant tenantCalls (twoTenants name job) where
  respected :=
    { committed := fun k v hc => by
        unfold twoTenants at hc
        dsimp only at hc
        split at hc
        · obtain rfl := Option.some.inj hc
          exact ⟨rfl, rfl⟩
        · obtain ⟨howner, hqueue⟩ := hjob v hc
          exact ⟨by rw [howner]; rfl, by rw [hqueue]; rfl⟩
        · obtain rfl := Option.some.inj hc
          exact ⟨rfl, rfl⟩
        · obtain rfl := Option.some.inj hc
          rfl
        · cases hc
      pending := fun k s v hp => by
        rw [twoTenants_unlocked] at hp
        cases hp }
  idle _ _ k v hp := by
    rw [twoTenants_unlocked] at hp
    cases hp

theorem tenantCalls_by : ∀ c ∈ tenantCalls, c.By exampleTenant 2 := by
  intro c hc
  simp only [tenantCalls, List.mem_cons, List.not_mem_nil, or_false] at hc
  obtain rfl | rfl | rfl | rfl := hc
  · exact ⟨rfl, rfl, by simp [Request.creates, exampleTenant]⟩
  · exact ⟨rfl, rfl, by simp [Request.creates]⟩
  · exact ⟨rfl, rfl, by simp [Request.creates]⟩
  · exact ⟨rfl, rfl, by simp [Request.creates]⟩

theorem twoTenants_differ (name₁ name₂ : String) (job₁ job₂ : Option JobEntry) :
    (tenants exampleTenant).Differ 1 (twoTenants name₁ job₁) (twoTenants name₂ job₂) where
  keys := rfl
  cell k hk := by
    unfold twoTenants
    dsimp only
    split
    · exact absurd rfl hk
    · exact absurd rfl hk
    · rfl
    · rfl
    · rfl
  clock := rfl

-- The job of organization 1 makes no difference, and stays as it is.
theorem tenant_isolation_tried :
    ((perform exampleCron tenantCalls (twoTenants "main" (some tenantJob))).map fun r =>
      r.2.cell (.job 1)) = some ⟨some tenantJob, none⟩ ∧
    (perform exampleCron tenantCalls (twoTenants "main" (some tenantJob))).map Prod.fst =
      (perform exampleCron tenantCalls (twoTenants "other" none)).map Prod.fst := by
  have hisolated := tenant_isolation exampleCron (by decide : (1 : OrgId) ≠ 2) tenantCalls_by
  have hjob : Tenanted exampleTenant tenantCalls (twoTenants "main" (some tenantJob)) :=
    twoTenants_tenanted "main" fun e he => Option.some.inj he ▸ ⟨rfl, rfl⟩
  have hnone : Tenanted exampleTenant tenantCalls (twoTenants "other" none) :=
    twoTenants_tenanted "other" fun e he => by cases he
  have hreturns : (perform exampleCron tenantCalls (twoTenants "main" (some tenantJob))).isSome =
      true := by decide +kernel
  obtain ⟨⟨responses, m'⟩, hrun⟩ := Option.isSome_iff_exists.mp hreturns
  refine ⟨?_, hisolated.2 _ _ hjob hnone (twoTenants_differ _ _ _ _)⟩
  rw [hrun]
  exact congrArg some ((hisolated.1 _ responses m' hjob hrun).2 (.job 1) rfl)

end Example

end Chronos
