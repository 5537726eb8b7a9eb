import Chronos.Data.Patch
import Chronos.Refinement.Enqueue

namespace Chronos

open Txn (TxId Stable Triple stmt)

variable {cond : Conditions} {c : Call} {t : TxId} {user : SessionUser}

-- Every field that the schema accepts keeps the checks of the row, and none renames it.
theorem QueueField.assign_ok {f : QueueField} {q q' : Queue} (hf : f.accepted = true)
    (hq : q.checks = true) (h : f.assign q = some q') : q'.checks = true ∧ q.SameName q' := by
  simp only [Queue.checks, decide_eq_true_eq] at hq
  cases f with
  | maxConcurrency value =>
      cases h
      refine ⟨?_, rfl, rfl⟩
      rw [Queue.checks, decide_eq_true_eq]
      exact ⟨hf, hq.2⟩
  | _ value =>
      cases value with
      | none => cases h
      | some x =>
          cases h
          refine ⟨?_, rfl, rfl⟩
          simp only [QueueField.accepted, Option.all_some, decide_eq_true_eq] at hf
          rw [Queue.checks, decide_eq_true_eq]
          tauto

theorem foldl_assign_ok {fields : List QueueField} (hf : ∀ f ∈ fields, f.accepted = true) (q : Queue)
    (hq : q.checks = true) :
    (fields.foldl (fun q f => (f.assign q).getD q) q).checks = true ∧
      q.SameName (fields.foldl (fun q f => (f.assign q).getD q) q) := by
  refine Patch.apply_keeps (fun f : QueueField => f.accepted = true)
    (fun q' => q'.checks = true ∧ q.SameName q') (fun q₁ f q₂ hf h hassign => ?_) fields hf q
    ⟨hq, .refl q⟩
  obtain ⟨hchecks, hsame⟩ := QueueField.assign_ok hf h.1 hassign
  exact ⟨hchecks, h.2.trans hsame⟩

theorem triple_exitWith {β : Type} {P : Db → Prop} (hst : Stable (spec cond) t P) (a : β) :
    Triple (spec cond) c t P (stmt .rollback >>= fun _ => pure a) fun _ => Unlocked t :=
  .bind (spec_sound cond) (triple_leave hst) fun _ => .pure stable_unlocked fun _ h => h

theorem triple_createQueue (projectId : Option ProjectId) {queue : Queue}
    (hqueue : queue.checks = true) :
    Triple (spec cond) c t (NoJobs t) (QueueService.create user projectId queue)
      fun _ => Unlocked t := by
  have hsound := spec_sound cond
  refine .bind hsound (triple_begin stable_noJobs) fun _ => ?_
  refine .bind hsound (triple_resolveProject (φ := False) stable_noJobs fun _ _ h => h.elim)
    fun project => ?_
  cases project with
  | error err => exact triple_exitWith (stable_noJobs.and (Stable.const _)) _
  | ok project =>
      refine .bind hsound (triple_insert (R := fun _ => NoJobs t)
        (stable_noJobs.and (Stable.const (False → _))) (fun _ => stable_noJobs)
        (fun m _ h _ _ _ => h.1) fun m hat h hk _ _ _ =>
          ⟨.own_queue hqueue fun q hq => ?_, ?_⟩) fun ok => ?_
      · rw [committedQueue, hat.wf.absent _ hk] at hq
        cases hq
      · exact h.1.insert (k := .queue queue.id) _ fun _ => by simp
      · cases ok with
        | true =>
            refine .bind hsound triple_commitNoJobs fun _ => ?_
            exact triple_exitWith stable_unlocked _
        | false => exact triple_exitWith stable_noJobs _

theorem triple_updateQueueRow {id : QueueId} {set : Queue → Queue}
    (hset : ∀ q : Queue, q.checks = true → (set q).checks = true ∧ q.SameName (set q)) :
    Triple (spec cond) c t (NoJobs t) (updateQueue id (fun _ => true) set) fun _ => NoJobs t := by
  refine triple_stmt stable_noJobs (fun _ => stable_noJobs) (by simp [Txn.Stmt.skipped])
    fun m r m' hat h he _ => ?_
  rcases Txn.exec_update he with ⟨rfl, rfl, -⟩ | ⟨q, hseen, -, -, rfl, rfl⟩
  · exact ⟨.refl, h⟩
  · have hok := hset q (hat.inv.queues id q (queueVersion_of_seen hseen))
    refine ⟨.own_queue hok.1 fun q₀ hq₀ => ?_, h.own fun _ => by simp⟩
    exact (hat.inv.sameName_seen hq₀ hseen).trans hok.2

theorem triple_updateQueue (queueId : QueueId) {fields : List QueueField}
    (hfields : fields.all QueueField.accepted = true) :
    Triple (spec cond) c t (NoJobs t) (QueueService.update user queueId fields)
      fun _ => Unlocked t := by
  have hsound := spec_sound cond
  refine .bind hsound (triple_begin stable_noJobs) fun _ => ?_
  refine .bind hsound (triple_select (R := fun _ => NoJobs t) stable_noJobs
    (fun _ => stable_noJobs) fun m _ h => h) fun loaded => ?_
  cases loaded with
  | none => exact triple_exitWith stable_noJobs _
  | some loaded =>
      dsimp only
      split
      · exact triple_exitWith stable_noJobs _
      · refine .bind hsound (triple_updateQueueRow fun q hq => ?_) fun _ => ?_
        · refine foldl_assign_ok (fun f hf => ?_) q hq
          exact List.all_eq_true.mp hfields f (List.mem_of_mem_filter hf)
        · refine .bind hsound triple_commitNoJobs fun _ => ?_
          exact triple_exitWith stable_unlocked _

end Chronos
