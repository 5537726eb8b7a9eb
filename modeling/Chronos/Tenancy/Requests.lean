import Chronos.Services.Updates
import Chronos.Tenancy.Services

namespace Chronos

open Txn (TxId)

variable {tenant : Key → OrgId} {b : OrgId} {t : TxId} {user : SessionUser} {α β γ : Type}

-- What each step of a fold keeps.
theorem foldl_keeps {f : β → γ → β} (g : β → α) (h : ∀ x y, g (f x y) = g x) (l : List γ) (x : β) :
    g (l.foldl f x) = g x := by
  induction l generalizing x with
  | nil => rfl
  | cons y l ih => exact (ih (f x y)).trans (h x y)

section Queues

variable (horg : user.orgId = b)

include horg

theorem confined_createQueue (projectId : Option ProjectId) {queue : Queue}
    (hqueue : tenant (.queue queue.id) = b) :
    Confined tenant b t (QueueService.create user projectId queue) fun _ => True := by
  refine .bind .begin fun _ _ => .bind (confined_resolveProject horg _) fun project hproject => ?_
  cases project with
  | error err => exact .abort _
  | ok project =>
      refine .bind (confined_insertQueue hqueue rfl (hproject project rfl)) fun inserted _ => ?_
      cases inserted with
      | true => exact .finish _
      | false => exact .abort _

theorem confined_getForOrg (queueId : QueueId) :
    Confined tenant b t (select (QueueService.getForOrg queueId user.orgId)) fun r =>
      ∀ q, r = some q → q.id = queueId ∧ tenant (.queue queueId) = b := by
  subst horg
  exact .select fun a ha v₁ v₂ h => alike_getForOrg h ha queueId

theorem confined_updateQueue (queueId : QueueId) (fields : List QueueField) :
    Confined tenant b t (QueueService.update user queueId fields) fun _ => True := by
  refine .bind .begin fun _ _ => .bind (confined_getForOrg horg queueId) fun found hfound => ?_
  cases found with
  | none => exact .abort _
  | some loaded =>
      obtain ⟨-, hqueue⟩ := hfound loaded rfl
      dsimp only
      split
      · exact .abort _
      · refine .bind (.update (fun _ _ _ => hqueue) fun q hok => ?_) fun _ _ => .finish _
        have hkeeps : ∀ (q : Queue) (f : QueueField),
            (((f.assign q).getD q).id, ((f.assign q).getD q).projectId) = (q.id, q.projectId) := by
          intro q f
          cases f with
          | _ value => cases value <;> rfl
        have hsame := foldl_keeps (fun q : Queue => (q.id, q.projectId)) hkeeps
          (fields.filter fun f => f.assign loaded ≠ some loaded) q
        obtain ⟨hid, hproject⟩ := Prod.mk.inj hsame
        obtain ⟨hqid, hqproject⟩ := hok
        exact ⟨hid.trans hqid, hproject ▸ hqproject⟩

theorem confined_queueGet (queueId : QueueId) :
    Confined tenant b t (QueueService.get user queueId) fun r =>
      ∀ q, r = .ok q → q.id = queueId ∧ tenant (.queue queueId) = b :=
  confined_found (confined_getForOrg horg queueId) (fun _ => rfl) rfl

theorem confined_counts :
    Confined tenant b t (select fun v id => QueueService.countsByStatus user.orgId id v)
      fun _ => True := by
  subst horg
  refine .query fun a ha v₁ v₂ h => ?_
  funext id status
  exact alike_countsByStatus h ha id status

theorem confined_listWithStats (projectId : Option ProjectId) (rank : QueueId → Nat) :
    Confined tenant b t (QueueService.listWithStats user projectId rank) fun _ => True := by
  refine .bind .begin fun _ _ => .bind (.query fun a ha v₁ v₂ h => ?_) fun queues _ =>
    .bind (confined_counts horg) fun counts _ => .abort _
  subst horg
  exact alike_listForOrg h ha projectId rank

theorem confined_stats (queueId : QueueId) :
    Confined tenant b t (QueueService.stats user queueId) fun _ => True := by
  refine .bind .begin fun _ _ => .bind (confined_queueGet horg queueId) fun queue _ => ?_
  cases queue with
  | error err => exact .abort _
  | ok queue => exact .bind (confined_counts horg) fun counts _ => .abort _

end Queues

section Schedules

variable (horg : user.orgId = b) (hid : tenant (.user user.id) = b)

theorem confined_scheduleQueue {id : QueueId} (hq : tenant (.queue id) = b) {project : Project}
    (hproject : tenant (.project project.id) = b) (name : String) :
    Confined tenant b t (ScheduleService.resolveQueue id project name) fun r =>
      ∀ q, r = .ok q → tenant (.queue q.id) = b := by
  unfold ScheduleService.resolveQueue
  cases storableText name with
  | false => exact .pure fun q heq => by cases heq
  | true =>
      refine .bind (confined_getByName hproject name) fun found hfound => ?_
      cases found with
      | some queue => exact .pure fun q heq => hfound q (congrArg some (Except.ok.inj heq))
      | none =>
          refine .bind (confined_insertQueue hq rfl hproject) fun inserted _ => ?_
          cases inserted with
          | true => exact .pure fun q heq => Except.ok.inj heq ▸ hq
          | false => exact .pure fun q heq => by cases heq

include horg hid in
theorem confined_createSchedule (cron : CronClock) (data : ScheduleCreate) {id : ScheduleId}
    (hschedule : tenant (.schedule id) = b) {queueId : QueueId} (hqueue : tenant (.queue queueId) = b) :
    Confined tenant b t (ScheduleService.create cron user data id queueId) fun _ => True := by
  refine .bind .begin fun now _ => .bind (R := fun _ => True) ?_ fun staged _ => ?_
  · refine .bind (confined_resolveProject horg _) fun project hproject => ?_
    cases project with
    | error err => exact .return _
    | ok project =>
        refine .bind (confined_scheduleQueue hqueue (hproject project rfl) _) fun queue hq => ?_
        cases queue with
        | error err => exact .return _
        | ok queue =>
            dsimp only
            cases cron.next data.cronExpr now with
            | none => exact .return _
            | some nextRunAt =>
                dsimp only
                split
                · split
                  · refine .bind (.insert hschedule (fun s hs => ?_) fun _ _ _ h => by cases h)
                      fun inserted _ => ?_
                    · obtain rfl := Option.some.inj hs
                      exact ⟨hid.trans hschedule.symm, (hq queue rfl).trans hschedule.symm⟩
                    · cases inserted <;> exact .return _
                  · exact .return _
                · exact .return _
  · cases staged with
    | ok s => exact .finish _
    | error err => exact .abort _

include hid in
theorem confined_getSchedule (scheduleId : ScheduleId) :
    Confined tenant b t (ScheduleService.get user scheduleId) fun r =>
      ∀ s, r = .ok s → tenant (.schedule scheduleId) = b :=
  confined_found (.select fun _ ha _ _ h => alike_getSchedule h ha hid scheduleId) (fun _ => rfl) rfl

-- An update of a schedule of the organization.
theorem confined_setSchedule {scheduleId : ScheduleId} (hschedule : tenant (.schedule scheduleId) = b)
    {set : Schedule → Option Schedule}
    (hset : ∀ s s', set s = some s' → s'.ownerId = s.ownerId ∧ s'.queueId = s.queueId) :
    Confined tenant b t (updateSchedule scheduleId set) fun _ => True := by
  refine .update (fun _ _ _ => hschedule) fun row hok s' hs' => ?_
  obtain ⟨s, hs, heq⟩ := Option.bind_eq_some_iff.mp hs'
  obtain ⟨howner, hqueue⟩ := hset s s' heq
  rw [howner, hqueue]
  exact hok s hs

include hid in
theorem confined_updateSchedule (cron : CronClock) (scheduleId : ScheduleId)
    (fields : List ScheduleField) :
    Confined tenant b t (ScheduleService.update cron user scheduleId fields) fun _ => True := by
  refine .bind .begin fun now _ => .bind (confined_getSchedule hid scheduleId) fun found hfound => ?_
  cases found with
  | error err => exact .abort _
  | ok loaded =>
      dsimp only
      cases ScheduleService.movedCursor cron loaded fields now with
      | error err => exact .abort _
      | ok cursor =>
          dsimp only
          split
          · exact .abort _
          · split
            · exact .finish _
            · refine .bind (confined_setSchedule (hfound loaded rfl) fun s s' hs => ?_)
                fun row _ => ?_
              · obtain rfl := Option.some.inj hs
                have hkeeps : ∀ (s : Schedule) (f : ScheduleField),
                    (((f.assign s).getD s).ownerId, ((f.assign s).getD s).queueId) =
                      (s.ownerId, s.queueId) := by
                  intro s f
                  cases f with
                  | _ value => cases value <;> rfl
                have hsame := foldl_keeps (fun s : Schedule => (s.ownerId, s.queueId)) hkeeps
                  (fields.filter fun f => f.assign loaded ≠ some loaded) s
                exact ScheduleService.changes_keeps
                  (fun s' => s'.ownerId = s.ownerId ∧ s'.queueId = s.queueId)
                  (Prod.mk.inj hsame) fun _ _ h => h
              · cases row with
                | none => exact .abort _
                | some row => exact .finish _

include hid in
theorem confined_deleteSchedule (scheduleId : ScheduleId) :
    Confined tenant b t (ScheduleService.delete user scheduleId) fun _ => True := by
  refine .bind .begin fun _ _ => .bind (confined_getSchedule hid scheduleId) fun found hfound => ?_
  cases found with
  | error err => exact .abort _
  | ok loaded =>
      exact .bind (confined_setSchedule (hfound loaded rfl) fun _ _ hs => by cases hs)
        fun _ _ => .finish _

end Schedules

section Organization

variable (horg : user.orgId = b)

include horg

theorem confined_getOrg : Confined tenant b t (TenancyService.getOrg user) fun _ => True := by
  subst horg
  refine .bind .begin fun _ _ => .bind (.query fun a ha v₁ v₂ h => alike_org h ha) fun org _ =>
    .bind .rollback fun _ _ => ?_
  cases org <;> exact .return _

theorem confined_listProjects :
    Confined tenant b t (TenancyService.listProjects user) fun _ => True := by
  subst horg
  exact .lookup (.query fun a ha v₁ v₂ h => alike_listProjects h ha)

theorem confined_getProject (projectId : ProjectId) :
    Confined tenant b t (TenancyService.getProject user projectId) fun _ => True := by
  subst horg
  refine .bind .begin fun _ _ => .bind (.query fun a ha v₁ v₂ h => (alike_getProject h ha projectId).1)
    fun project _ => .bind .rollback fun _ _ => ?_
  cases project <;> exact .return _

theorem confined_createProject (name : String) {id : ProjectId} (hproject : tenant (.project id) = b) :
    Confined tenant b t (TenancyService.createProject user name id) fun _ => True := by
  refine .bind .begin fun now _ => .bind (.insert hproject ⟨rfl, horg.trans hproject.symm⟩ ?_)
    fun inserted _ => ?_
  · intro k row hok hclash
    cases k with
    | project id' =>
        obtain ⟨-, howned⟩ := hok
        simp only [uqProjectsOrgName, decide_eq_true_eq] at hclash
        exact howned.symm.trans (hclash.1.trans horg)
    | _ => cases hclash
  · cases inserted with
    | true => exact .finish _
    | false => exact .abort _

theorem confined_updateRole (userId : UserId) (role : UserRole) :
    Confined tenant b t (Request.updateRoleOf user userId role) fun _ => True := by
  unfold Request.updateRoleOf
  split
  · exact .return _
  · refine .bind (.update (fun u hok hu => ?_) fun u hok => hok) fun updated _ => ?_
    · rw [decide_eq_true_eq] at hu
      exact hok.symm.trans (hu.trans horg)
    · cases updated with
      | none => exact .abort _
      | some updated => exact .finish _

end Organization

namespace Request

-- The rows a request may create.
def creates : Request → List Key
  | .createJob _ _ ids => [.job ids.job, .queue ids.queue]
  | .createBatch items _ => items.flatMap fun item => [.job item.jobId, .queue item.queueId]
  | .createQueue _ queue => [.queue queue.id]
  | .createSchedule _ id queueId => [.schedule id, .queue queueId]
  | .createProject _ id => [.project id]
  | _ => []

end Request

-- Every operation of the services, called by a user of the organization.
theorem confined_handle (cron : CronClock) (tx : TxId) (horg : user.orgId = b)
    (hid : tenant (.user user.id) = b) {r : Request} (hfresh : ∀ k ∈ r.creates, tenant k = b) :
    Confined tenant b t (r.handle cron tx user) fun _ => True := by
  cases r with
  | createJob data header ids =>
      exact .thenReturn (confined_enqueue horg hid tx _ (hfresh _ (by simp [Request.creates]))
        (hfresh _ (by simp [Request.creates]))) _
  | createBatch items batchId =>
      refine .thenReturn (confined_enqueueBatch horg hid tx batchId fun item hitem => ?_) _
      exact ⟨hfresh _ (List.mem_flatMap.mpr ⟨item, hitem, by simp⟩),
        hfresh _ (List.mem_flatMap.mpr ⟨item, hitem, by simp⟩)⟩
  | listJobs f limit offset => exact .thenReturn (confined_listJobs hid f limit offset) _
  | getJob jobId => exact .thenReturn (.lookup (confined_get hid jobId)) _
  | listAttempts jobId => exact .thenReturn (confined_listOfJob hid jobId _) _
  | cancelJob jobId => exact .thenReturn (confined_cancel hid jobId) _
  | requeueJob jobId => exact .thenReturn (confined_requeue hid jobId) _
  | listDependencies jobId => exact .thenReturn (confined_listOfJob hid jobId _) _
  | listDlq limit offset => exact .thenReturn (confined_listJobs hid _ limit offset) _
  | requeueDeadJob jobId => exact .thenReturn (confined_requeue hid jobId) _
  | listQueues projectId rank => exact .thenReturn (confined_listWithStats horg projectId rank) _
  | createQueue projectId queue =>
      exact .thenReturn (confined_createQueue horg projectId (hfresh _ (by simp [Request.creates]))) _
  | getQueue queueId => exact .thenReturn (.lookup (confined_queueGet horg queueId)) _
  | updateQueue queueId fields => exact .thenReturn (confined_updateQueue horg queueId fields) _
  | pauseQueue queueId => exact .thenReturn (confined_updateQueue horg queueId _) _
  | resumeQueue queueId => exact .thenReturn (confined_updateQueue horg queueId _) _
  | queueStats queueId => exact .thenReturn (confined_stats horg queueId) _
  | createSchedule data id queueId =>
      exact .thenReturn (confined_createSchedule horg hid cron data
        (hfresh _ (by simp [Request.creates])) (hfresh _ (by simp [Request.creates]))) _
  | listSchedules limit offset =>
      exact .thenReturn (.lookup (.query fun a ha v₁ v₂ h =>
        alike_listSchedules h ha hid limit offset)) _
  | getSchedule scheduleId =>
      exact .thenReturn (.bind (confined_getSchedule hid scheduleId) fun s _ => .abort s) _
  | updateSchedule scheduleId fields =>
      exact .thenReturn (confined_updateSchedule hid cron scheduleId fields) _
  | deleteSchedule scheduleId => exact .thenReturn (confined_deleteSchedule hid scheduleId) _
  | getOrg => exact .thenReturn (confined_getOrg horg) _
  | listProjects => exact .thenReturn (confined_listProjects horg) _
  | createProject name id =>
      exact .thenReturn (confined_createProject horg name (hfresh _ (by simp [Request.creates]))) _
  | getProject projectId => exact .thenReturn (confined_getProject horg projectId) _
  | listUsers =>
      subst horg
      exact .bind (.query fun a ha v₁ v₂ h => alike_listUsers h ha) fun users _ => .abort _
  | updateRole userId role => exact .thenReturn (confined_updateRole horg userId role) _

end Chronos
