import Chronos.Txn.Executions
import Chronos.Refinement.Runs

namespace Chronos

open Txn (TxId Traced Steady Quiet Assures Guarded stmt exec_insert)
open JobService

variable {m m' : Db} {s s' : State} {t : TxId}

section Enqueue

-- The job is built from the request. It has a workflow_id only if it depends on something.
structure JobEntry.Requested (data : JobCreate) (e : JobEntry) : Prop where
  job : ∃ id ownerId queue workflowId now, e.job = buildJob id ownerId queue data workflowId now ∧
    (data.dependsOn = [] → workflowId = none)
  deps : e.dependsOn = data.dependsOn

-- A row of jobs that becomes visible is the one that was, or one the request is for.
def PublishesRequested (data : JobCreate) (m m' : Db) : Prop :=
  ∀ id e, committedJob m' id = some e → committedJob m id = some e ∨ e.Requested data

def NoneStaged (t : TxId) (m : Db) : Prop := ∀ id, m.mine t (.job id) = none

-- The only row of jobs that `t` holds.
def OnlyStaged (t : TxId) (id : JobId) (e : JobEntry) (m : Db) : Prop :=
  m.mine t (.job id) = some e ∧ ∀ id', id' ≠ id → m.mine t (.job id') = none

theorem steady_noneStaged : Steady t (NoneStaged t) :=
  Steady.mine fun mine : ∀ k, Option (Row k) => ∀ id, mine (.job id) = none

theorem steady_onlyStaged (id : JobId) (e : JobEntry) : Steady t (OnlyStaged t id e) :=
  Steady.mine fun mine : ∀ k, Option (Row k) =>
    mine (.job id) = some e ∧ ∀ id', id' ≠ id → mine (.job id') = none

theorem requested_of_quiet {data : JobCreate} (h : Quiet m m') : PublishesRequested data m m' :=
  fun id _ he => .inl ((h (.job id)).symm.trans he)

-- Statements before the flush of the job: they look rows up, or insert a queue.
inductive Prepares : {β : Type} → Txn.Stmt Key Row Time β → Prop
  | begin : Prepares .begin
  | select {β : Type} (query : Snapshot → β) : Prepares (.select query)
  | insertQueue (id : QueueId) (row : Queue) (clash : ∀ k, Row k → Bool) :
      Prepares (.insert (Key.queue id) row clash)

theorem Prepares.exec {β : Type} {st : Txn.Stmt Key Row Time β} (h : Prepares st) {r : β}
    (hm : NoneStaged t m) (he : Txn.exec t st m = some (r, m')) : Quiet m m' ∧ NoneStaged t m' := by
  cases h with
  | begin =>
      simp only [Txn.exec, Option.some.injEq, Prod.mk.injEq] at he
      exact he.2 ▸ ⟨Txn.quiet_refl m, hm⟩
  | select query =>
      simp only [Txn.exec, Option.some.injEq, Prod.mk.injEq] at he
      exact he.2 ▸ ⟨Txn.quiet_refl m, hm⟩
  | insertQueue id row clash =>
      obtain ⟨-, ⟨-, rfl, -⟩ | ⟨-, rfl, -, -⟩⟩ := exec_insert he
      · exact ⟨Txn.quiet_refl _, hm⟩
      · refine ⟨Txn.quiet_insert _, fun id' => ?_⟩
        exact (Txn.mine_insert_ne _ (by simp)).trans (hm id')

theorem traced_prepares {β : Type} {p : Tx β} (h : p.All Prepares) :
    Traced t Quiet (NoneStaged t) p fun _ => NoneStaged t :=
  .all steady_noneStaged (h.mono fun _ hst _ _ _ _ hm he => hst.exec hm he)

theorem traced_reads {β : Type} {p : Tx β} (h : p.All Txn.Stmt.Reads) :
    Traced t Quiet (fun _ => True) p fun _ _ => True := by
  refine .all (fun _ _ _ _ => trivial) (h.mono fun st hst m r m' _ _ he => ⟨?_, trivial⟩)
  cases hst with
  | begin =>
      simp only [Txn.exec, Option.some.injEq, Prod.mk.injEq] at he
      exact he.2 ▸ Txn.quiet_refl m
  | select query =>
      simp only [Txn.exec, Option.some.injEq, Prod.mk.injEq] at he
      exact he.2 ▸ Txn.quiet_refl m
  | rollback =>
      simp only [Txn.exec, Option.some.injEq, Prod.mk.injEq] at he
      exact he.2 ▸ Txn.quiet_rollback t m

theorem prepares_resolveProject (user : SessionUser) (projectId : Option ProjectId) :
    (resolveProject user projectId).All Prepares := by
  unfold resolveProject
  cases projectId with
  | none =>
      refine .bind (.stmt (.select _)) fun project => ?_
      cases project <;> exact .pure _
  | some id =>
      refine .bind (.stmt (.select _)) fun project => ?_
      cases project <;> exact .pure _

theorem prepares_resolveQueue (id : QueueId) (project : Project) (name : String) :
    (resolveQueue id project name).All Prepares := by
  unfold resolveQueue
  split
  swap
  · exact .pure _
  refine .bind (.stmt (.select _)) fun found => ?_
  cases found with
  | some queue => exact .pure _
  | none =>
      refine .bind (.stmt (.insertQueue id _ _)) fun ok => ?_
      cases ok with
      | true => exact .pure _
      | false =>
          refine .bind (.stmt (.select _)) fun found => ?_
          cases found <;> exact .pure _

theorem prepares_checkDependencies (ownerId : UserId) (deps : List JobId) (w : Option Nat) :
    (checkDependencies ownerId deps w).All Prepares := by
  induction deps generalizing w with
  | nil => exact .pure _
  | cons dep deps ih =>
      refine .bind (.stmt (.select _)) fun found => ?_
      cases found with
      | none => exact .pure _
      | some job => exact ih _

theorem prepares_preCheck (user : SessionUser) (data : JobCreate) :
    (preCheck user data).All Prepares := by
  unfold preCheck
  split
  · split
    · exact .bind (.stmt (.select _)) fun _ => .pure _
    · exact .pure _
  · exact .pure _

theorem reads_recover (user : SessionUser) (data : JobCreate) :
    (recover user data).All Txn.Stmt.Reads := by
  refine .bind (.stmt .rollback) fun _ => ?_
  cases truthyKey data with
  | none => exact .pure _
  | some key =>
      dsimp only
      split
      · exact .pure _
      · refine .bind (.stmt (.select _)) fun existing => ?_
        cases existing <;> exact .pure _

-- The commit publishes the one row the transaction holds.
theorem OnlyStaged.commit {id : JobId} {e : JobEntry} {data : JobCreate} (h : OnlyStaged t id e m)
    (he : e.Requested data) : PublishesRequested data m (m.commit t) := by
  intro id' e' he'
  rw [committedJob, Txn.commit_committed] at he'
  by_cases hid : id' = id
  · subst hid
    rw [h.1, Option.some_or, Option.some.injEq] at he'
    exact .inr (he' ▸ he)
  · rw [h.2 id' hid, Option.none_or] at he'
    exact .inl he'

theorem traced_insertJob {job : Job} {data : JobCreate} {id : JobId} {ownerId : UserId}
    {queue : Queue} {w : Option Nat} {now : Time} (hjob : job = buildJob id ownerId queue data w now)
    (hw : data.dependsOn = [] → w = none) :
    Traced t (PublishesRequested data) (NoneStaged t) (insertJob t job data.dependsOn)
      fun _ _ => True := by
  let row (deps : List JobId) : JobEntry :=
    { job := job, attempts := [], dependsOn := deps, log := [.created t] }
  unfold insertJob
  split
  · refine .bind (Q := fun ok m => ok = true → OnlyStaged t job.id (row []) m)
      (.stmt steady_noneStaged (fun m r m' hwf h he => ?_) fun m r _ hr => by cases hr) fun ok => ?_
    · obtain ⟨hk, ⟨rfl, rfl, -⟩ | ⟨rfl, rfl, -, -⟩⟩ := exec_insert he
      · exact ⟨requested_of_quiet (Txn.quiet_refl _), nofun⟩
      · refine ⟨requested_of_quiet (Txn.quiet_insert _), fun _ => ?_⟩
        refine ⟨Txn.mine_insert_self _, fun id hne => ?_⟩
        rw [Txn.mine_insert_ne _ (by simpa using hne)]
        exact h id
    · cases ok with
      | false => exact .pure fun m _ => trivial
      | true =>
          rw [if_pos rfl]
          split
          · refine (Traced.bind (Q := fun _ => OnlyStaged t job.id (row data.dependsOn))
              (.stmt (steady_onlyStaged job.id (row [])) (fun m r m' hwf h he => ?_)
                fun m r _ hr => by cases hr) fun _ => ?_).pre fun m h => h rfl
            · have hp := Txn.mine_eq_some.mp h.1
              simp only [Txn.exec, hp, if_true, Option.some.injEq, Prod.mk.injEq] at he
              obtain ⟨-, rfl⟩ := he
              refine ⟨requested_of_quiet (Txn.quiet_own _), Txn.mine_own_self _, fun id hne => ?_⟩
              rw [Txn.mine_own_ne _ (by simpa using hne)]
              exact h.2 id hne
            · refine .bind (Q := fun _ _ => True) (.stmt (steady_onlyStaged _ _)
                (fun m r m' hwf h he => ?_) fun m r _ hr => by cases hr) fun _ => ?_
              · simp only [Txn.exec, Option.some.injEq, Prod.mk.injEq] at he
                obtain ⟨-, rfl⟩ := he
                exact ⟨h.commit ⟨⟨id, ownerId, queue, w, now, hjob, hw⟩, rfl⟩, trivial⟩
              · exact .pure fun m _ => trivial
          · exact .pure fun m _ => trivial
  · exact .pure fun m _ => trivial

theorem traced_create {user : SessionUser} {data : JobCreate} {ids : FreshIds} {now : Time} :
    Traced t (PublishesRequested data) (NoneStaged t) (JobService.create t user data ids now)
      fun _ _ => True := by
  have hquiet : ∀ m m' : Db, Quiet m m' → PublishesRequested data m m' :=
    fun _ _ => requested_of_quiet
  refine .bind ((traced_prepares (prepares_resolveProject user _)).guar hquiet) fun project => ?_
  cases project with
  | error err => exact .pure fun m _ => trivial
  | ok project =>
      refine .bind ((traced_prepares (prepares_resolveQueue _ project _)).guar hquiet) fun queue => ?_
      cases queue with
      | error err => exact .pure fun m _ => trivial
      | ok queue =>
          -- Without dependencies the id stays None.
          have hcheck : Traced t Quiet (NoneStaged t) (checkDependencies user.id data.dependsOn
              (if data.dependsOn = [] then none else some ids.workflow)) fun w m =>
                (data.dependsOn = [] → w = .ok none) ∧ NoneStaged t m := by
            by_cases hdeps : data.dependsOn = []
            · rw [hdeps]
              exact .pure fun m h => ⟨fun _ => rfl, h⟩
            · exact (traced_prepares (prepares_checkDependencies user.id _ _)).post
                fun w m h => ⟨fun h' => absurd h' hdeps, h⟩
          refine .bind (hcheck.guar hquiet) fun w => .given fun hw => ?_
          cases w with
          | error err => exact .pure fun m _ => trivial
          | ok w =>
              dsimp only
              split
              · refine .bind (traced_insertJob rfl fun hdeps => Except.ok.inj (hw hdeps))
                  fun ok => ?_
                cases ok with
                | true => exact .pure fun m _ => trivial
                | false => exact (traced_reads (reads_recover user data)).guar hquiet
              · exact .pure fun m _ => trivial

theorem traced_enqueue {user : SessionUser} {data : JobCreate} {ids : FreshIds} :
    Traced t (PublishesRequested data) (NoneStaged t) (JobService.enqueue t user data ids)
      fun _ _ => True := by
  have hquiet : ∀ m m' : Db, Quiet m m' → PublishesRequested data m m' :=
    fun _ _ => requested_of_quiet
  have hexit : ∀ r : Except PyError (Job × Bool), Traced t (PublishesRequested data)
      (fun _ => True) (stmt .rollback >>= fun _ => pure r) fun _ _ => True :=
    fun r => (traced_reads (.bind (.stmt .rollback) fun _ => .pure r)).guar hquiet
  refine .bind ((traced_prepares (.stmt .begin)).guar hquiet) fun now => ?_
  refine .bind ((traced_prepares (prepares_preCheck user data)).guar hquiet) fun found => ?_
  cases found with
  | error err => exact (hexit _).pre fun m _ => trivial
  | ok found =>
      cases found with
      | some job => exact (hexit _).pre fun m _ => trivial
      | none => exact .bind traced_create hexit

end Enqueue

section Runs

-- What the statements of a call make visible.
def callPublishes (_ : TxId) : Call → Db → Db → Prop
  | .enqueue _ data _ => PublishesRequested data
  | _ => fun _ _ => True

theorem keeps_callPublishes (c : Call) (hwf : m.WF) (hidle : m.mine t = fun _ => none) :
    Assures t (callPublishes t c) (c.body t) m := by
  cases c with
  | enqueue user data ids =>
      have hbody : Traced t (PublishesRequested data) (NoneStaged t)
          ((Call.enqueue user data ids).body t) fun _ _ => True :=
        .bind traced_enqueue fun r => .pure fun m _ => trivial
      exact hbody.assures hwf fun id => congrFun hidle (.job id)
  | _ => exact fun _ _ _ _ _ _ => trivial

theorem guarded_of_reachable (hm : Initial m) (h : system.Reachable m s) :
    Guarded callPublishes s :=
  .of_reaches hm.wf hm.unlocked (fun _ _ c _ _ hwf hidle => keeps_callPublishes c hwf hidle) h

-- A new job is as its request says.
theorem requested_of_created (hm : Initial m) (h : system.Reachable m s) {ev : Event}
    (hstep : system.step s ev = some s') {id : JobId} (hnone : committedJob s.mem id = none)
    {e : JobEntry} (he : committedJob s'.mem id = some e) :
    ∃ t user data ids p, ev = .run t ∧ s.thread t = some ⟨.enqueue user data ids, some p⟩ ∧
      e.Requested data := by
  cases Run.published hm (run_of_reachable h) hstep (permitted_none s ev s') id with
  | same heq => rw [heq, hnone] at he; cases he
  | changed t c p op d d' hev ht hd => rw [hnone] at hd; cases hd
  | created t c p d hev ht _ hd hnew =>
      obtain ⟨user, data, ids, rfl, -⟩ := hnew.call
      subst hev
      have hpub : PublishesRequested data s.mem s'.mem :=
        (guarded_of_reachable hm h).guarantee hstep ht
      refine ⟨t, user, data, ids, p, rfl, ht, ?_⟩
      rcases hpub id e he with hold | hreq
      · rw [hnone] at hold
        cases hold
      · exact hreq

end Runs

end Chronos
