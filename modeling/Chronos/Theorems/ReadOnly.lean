import Chronos.Api.Routers
import Chronos.Refinement.Checks
import Chronos.Txn.Shape

namespace Chronos

open Txn (TxId Prog Stmt stmt)

-- Requests served one after the other, each with the id of its transaction and of its user.
def serve (cron : CronClock) : List (TxId × UserId × Request) → Db → Option (List Response × Db)
  | [], m => some ([], m)
  | (t, userId, r) :: requests, m =>
      ((r.body cron t userId).run t m).bind fun (response, m') =>
        (serve cron requests m').map fun (responses, m'') => (response :: responses, m'')

namespace Request

-- The endpoints that write.
def mutates : Request → Bool
  | .createJob .. => true
  | .createBatch .. => true
  | .cancelJob _ => true
  | .requeueJob _ => true
  | .requeueDeadJob _ => true
  | .createQueue .. => true
  | .updateQueue .. => true
  | .pauseQueue _ => true
  | .resumeQueue _ => true
  | .createSchedule .. => true
  | .updateSchedule .. => true
  | .deleteSchedule _ => true
  | .createProject .. => true
  | .updateRole .. => true
  | _ => false

-- The endpoints that write without a call of require_role.
def unguarded (r : Request) : Bool := r.mutates && r.minimum.isNone

end Request

section Reads

variable {α β : Type} {user : SessionUser} {jobId : JobId} {queueId : QueueId}

theorem reads_begin : (stmt .begin : Tx Time).All Stmt.Reads := .stmt .begin

theorem reads_rollback : (stmt .rollback : Tx Unit).All Stmt.Reads := .stmt .rollback

theorem reads_select (query : Snapshot → β) : (select query).All Stmt.Reads := .stmt (.select query)

theorem reads_return (p : Tx α) (f : α → β) (h : p.All Stmt.Reads) :
    (p >>= fun a => Pure.pure (f a)).All Stmt.Reads :=
  .bind h fun _ => .pure _

-- A lookup between the begin and the rollback of its request.
theorem reads_lookup {p : Tx α} (h : p.All Stmt.Reads) :
    (stmt .begin >>= fun _ => p >>= fun a => stmt .rollback >>= fun _ => Pure.pure a : Tx α).All
      Stmt.Reads :=
  .bind reads_begin fun _ => .bind h fun _ => .bind reads_rollback fun _ => .pure _

theorem reads_get : (JobService.get user.id jobId).All Stmt.Reads := by
  refine .bind (reads_select _) fun job => ?_
  cases job <;> exact .pure _

theorem reads_getJob : (JobService.getJob user.id jobId).All Stmt.Reads :=
  reads_lookup reads_get

theorem reads_listJobs (f : JobRepository.JobFilter) (limit offset : Nat) :
    (JobService.listJobs user.id f limit offset).All Stmt.Reads :=
  reads_lookup (reads_select _)

theorem reads_listOfJob (rows : JobEntry → List β) :
    (JobService.listOfJob user.id jobId rows).All Stmt.Reads := by
  refine .bind reads_begin fun _ => .bind reads_get fun job => ?_
  cases job with
  | error err => exact .bind reads_rollback fun _ => .pure _
  | ok job => exact .bind (reads_select _) fun _ => .bind reads_rollback fun _ => .pure _

theorem reads_queueGet : (QueueService.get user queueId).All Stmt.Reads := by
  refine .bind (reads_select _) fun queue => ?_
  cases queue <;> exact .pure _

theorem reads_listWithStats (projectId : Option ProjectId) (rank : QueueId → Nat) :
    (QueueService.listWithStats user projectId rank).All Stmt.Reads :=
  .bind reads_begin fun _ => .bind (reads_select _) fun _ => .bind (reads_select _) fun _ =>
    .bind reads_rollback fun _ => .pure _

theorem reads_stats : (QueueService.stats user queueId).All Stmt.Reads := by
  refine .bind reads_begin fun _ => .bind reads_queueGet fun queue => ?_
  cases queue with
  | error err => exact .bind reads_rollback fun _ => .pure _
  | ok queue => exact .bind (reads_select _) fun _ => .bind reads_rollback fun _ => .pure _

theorem reads_getSchedule (scheduleId : ScheduleId) :
    (Request.getScheduleOf user scheduleId).All Stmt.Reads := by
  refine .bind (.bind (reads_select _) fun s => ?_) fun _ => .bind reads_rollback fun _ => .pure _
  cases s <;> exact .pure _

theorem reads_getOrg : (TenancyService.getOrg user).All Stmt.Reads := by
  refine .bind reads_begin fun _ => .bind (reads_select _) fun org => .bind reads_rollback fun _ => ?_
  cases org <;> exact .pure _

theorem reads_getProject (projectId : ProjectId) :
    (TenancyService.getProject user projectId).All Stmt.Reads := by
  refine .bind reads_begin fun _ => .bind (reads_select _) fun project =>
    .bind reads_rollback fun _ => ?_
  cases project <;> exact .pure _

-- An endpoint that does not write runs statements that only read.
theorem reads_handle (cron : CronClock) (t : TxId) {r : Request} (h : r.mutates = false) :
    (r.handle cron t user).All Stmt.Reads := by
  cases r with
  | listJobs f limit offset => exact reads_return _ _ (reads_listJobs f limit offset)
  | getJob jobId => exact reads_return _ _ reads_getJob
  | listAttempts jobId => exact reads_return _ _ (reads_listOfJob _)
  | listDependencies jobId => exact reads_return _ _ (reads_listOfJob _)
  | listDlq limit offset => exact reads_return _ _ (reads_listJobs _ limit offset)
  | listQueues projectId rank => exact reads_return _ _ (reads_listWithStats projectId rank)
  | getQueue queueId => exact reads_return _ _ (reads_lookup reads_queueGet)
  | queueStats queueId => exact reads_return _ _ reads_stats
  | listSchedules limit offset => exact reads_return _ _ (reads_lookup (reads_select _))
  | getSchedule scheduleId => exact reads_return _ _ (reads_getSchedule scheduleId)
  | getOrg => exact reads_return _ _ reads_getOrg
  | listProjects => exact reads_return _ _ (reads_lookup (reads_select _))
  | getProject projectId => exact reads_return _ _ (reads_getProject projectId)
  | listUsers =>
      exact .bind (reads_select _) fun _ => .bind reads_rollback fun _ => .pure _
  | _ => exact absurd h (by simp [Request.mutates])

end Reads

section Viewer

variable {t : TxId} {m : Db}

theorem seen_of_idle (hidle : m.Idle t) (k : Key) : (m.cell k).seen t = (m.cell k).committed := by
  unfold Txn.Cell.seen
  split
  · rename_i s v hp
    have hne : s ≠ t := fun h => hidle k v (h ▸ hp)
    simp [hne]
  · rfl

-- require_role lets no viewer pass, whatever role it is asked for.
theorem requireRole_viewer {user : User} (h : user.role = .viewer) {minimum : UserRole}
    (hmin : minimum ≠ .viewer) : ∃ detail, requireRole user minimum = .error (.forbidden detail) := by
  cases minimum with
  | viewer => exact absurd rfl hmin
  | owner => exact ⟨_, by simp only [requireRole, h, UserRole.rank]; rfl⟩
  | admin => exact ⟨_, by simp only [requireRole, h, UserRole.rank]; rfl⟩
  | member => exact ⟨_, by simp only [requireRole, h, UserRole.rank]; rfl⟩

theorem minimum_ne_viewer (r : Request) : r.minimum ≠ some .viewer := by
  cases r <;> simp [Request.minimum]

-- A viewer's request that is not one of the unguarded ones leaves the database as it is; if its
-- endpoint writes, it is refused.
theorem viewer_request (cron : CronClock) {userId : UserId} {user : User} {r : Request} (hidle : m.Idle t)
    (huser : (m.cell (.user userId)).committed = some user) (hrole : user.role = .viewer)
    (hguard : r.unguarded = false) :
    ∃ response, (r.body cron t userId).run t m = some (response, m) ∧
      (r.mutates = true → ∃ detail, response = .raised (.forbidden detail)) := by
  have hseen : (m.view t).row (.user userId) = some user := (seen_of_idle hidle _).trans huser
  cases hmin : r.minimum with
  | some minimum =>
      have hne : minimum ≠ .viewer := fun h => minimum_ne_viewer r (h ▸ hmin)
      obtain ⟨detail, hdetail⟩ := requireRole_viewer hrole hne
      refine ⟨.raised (.forbidden detail), ?_, fun _ => ⟨detail, rfl⟩⟩
      simp [Request.body, Prog.run, stmt, Txn.exec, Snapshot.user, hseen, hmin, hdetail,
        Txn.Store.rollback_eq_self hidle]
  | none =>
      have hread : r.mutates = false := by simpa [Request.unguarded, hmin] using hguard
      have hreads : (r.handle cron t ⟨userId, user.orgId, true⟩).All Stmt.Reads :=
        reads_handle cron t hread
      obtain ⟨response, hrun⟩ := hreads.run_reads hidle
      refine ⟨response, ?_, fun h => absurd h (by simp [hread])⟩
      simpa [Request.body, Prog.run_bind, Prog.run, stmt, Txn.exec, Snapshot.user, hseen, hmin]
        using hrun

end Viewer

-- Requests of viewers, with the transactions they run in not begun yet.
structure ViewersOnly (requests : List (TxId × UserId × Request)) (m : Db) : Prop where
  idle : ∀ p ∈ requests, m.Idle p.1
  viewer : ∀ p ∈ requests, ∃ user, (m.cell (.user p.2.1)).committed = some user ∧
    user.role = .viewer

-- A viewer changes nothing in any sequence of requests without one of the unguarded endpoints.
theorem viewer_read_only (cron : CronClock) (m : Db) (requests : List (TxId × UserId × Request))
    (h : ViewersOnly requests m) (hguard : ∀ p ∈ requests, p.2.2.unguarded = false) :
    ∃ responses, serve cron requests m = some (responses, m) ∧
      List.Forall₂ (fun p response => p.2.2.mutates = true →
        ∃ detail, response = .raised (.forbidden detail)) requests responses := by
  induction requests with
  | nil => exact ⟨[], rfl, .nil⟩
  | cons p requests ih =>
      obtain ⟨t, userId, r⟩ := p
      obtain ⟨user, huser, hrole⟩ := h.viewer _ List.mem_cons_self
      obtain ⟨response, hrun, hrefused⟩ := viewer_request cron
        (h.idle _ List.mem_cons_self) huser hrole (hguard _ List.mem_cons_self)
      obtain ⟨responses, hserve, hall⟩ := ih
        ⟨fun p hp => h.idle p (List.mem_cons_of_mem _ hp),
          fun p hp => h.viewer p (List.mem_cons_of_mem _ hp)⟩
        fun p hp => hguard p (List.mem_cons_of_mem _ hp)
      refine ⟨response :: responses, ?_, .cons hrefused hall⟩
      simp only [serve, hrun, Option.bind_some, hserve, Option.map_some]

-- A viewer who owns a dead job, from the time before his role was changed.
def viewerDb : Db :=
  { exampleDb with
    keys := [.user 0, .job 7]
    cell := fun
      | .user 0 => ⟨some ⟨0, 0, "viewer@example.org", .viewer, 0⟩, none⟩
      | .job 7 => ⟨some
          { job := { exampleJob 5 3 0 with status := .dead }
            attempts := [], dependsOn := [], log := [] }, none⟩
      | _ => .empty }

def viewerRequests : List (TxId × UserId × Request) :=
  [(1, 0, .requeueJob 7), (2, 0, .listDlq 50 0), (3, 0, .updateRole 1 .owner)]

theorem viewerDb_unlocked (k : Key) : (viewerDb.cell k).pending = none := by
  unfold viewerDb
  dsimp only
  split <;> rfl

theorem viewer_read_only_refused :
    ∃ responses, serve exampleCron viewerRequests viewerDb = some (responses, viewerDb) ∧
      List.Forall₂ (fun p response => p.2.2.mutates = true →
        ∃ detail, response = .raised (.forbidden detail)) viewerRequests responses := by
  have huser : ∀ p ∈ viewerRequests, p.2.1 = 0 := by simp [viewerRequests]
  refine viewer_read_only exampleCron viewerDb viewerRequests ⟨?_, ?_⟩ ?_
  · intro p _ k v hp
    simp [viewerDb_unlocked k] at hp
  · intro p hp
    rw [huser p hp]
    exact ⟨_, rfl, rfl⟩
  · simp [viewerRequests, Request.unguarded, Request.mutates, Request.minimum]

-- The DLQ endpoint requeues the job that the jobs endpoint refuses to requeue.
theorem viewer_requeues_dead_job :
    (viewerDb.cell (.job 7)).committed.map (fun e => e.job.status) = some .dead ∧
      (serve exampleCron [(1, 0, .requeueDeadJob 7)] viewerDb).map
        (fun r => (r.2.cell (.job 7)).committed.map fun e => e.job.status) =
          some (some .pending) := by
  decide +kernel

end Chronos
