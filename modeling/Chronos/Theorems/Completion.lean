import Chronos.Theorems.Conservation
import Chronos.Theorems.WorkflowGraph
import Mathlib.Data.Finset.Order

namespace Chronos

open Txn (TxId Reaches Runs Settled)
open JobRepository ExecutionService

variable {m : Db} {s : State} {v v' : Snapshot} {now : Time} {id : JobId} {e e' : JobEntry}
  {w : WorkerId}

-- The worker has its row, which `jobs.locked_by` and `job_attempts.worker_id` refer to.
def RegisteredWorker (w : WorkerId) (s : State) : Prop :=
  (s.mem.cell (.worker w)).committed.isSome = true

-- What the platform goes on with: calls cut off, time, sweeps, owners that requeue what is in the
-- DLQ, workers that start, and workers with a row that claim jobs and complete them. No job is
-- added, none cancelled.
def Resuming (s : State) (ev : Event) (_ : State) : Prop :=
  match ev with
  | .tick _ | .abort _ | .run _ => True
  | .start _ (.registerWorker _ _ _) => True
  | .start _ (.reapOnce _ _ _) | .start _ (.requeue _ _) => True
  | .start _ (.claimJobs a) => RegisteredWorker a.workerId s
  | .start _ (.finalize _ _ _ (.completeSuccess _)) => True
  | _ => False

-- No worker's row is ever deleted.
theorem RegisteredWorker.of_reaches {ok : State → Event → State → Prop} {s' : State}
    (hw : RegisteredWorker w s) (h : Reaches system.step ok s s') : RegisteredWorker w s' :=
  h.invariant hw fun _ _ _ _ hs hstep _ => Txn.System.stays hstep hs

-- Every job has its queue, and no queue is paused.
def Serviceable (v : Snapshot) : Prop :=
  ∀ id e, v.job id = some e → ∃ q, v.queue e.job.queueId = some q ∧ q.paused = false

section Moves

-- One job has moved on.
structure Moves (id : JobId) (e e' : JobEntry) (v v' : Snapshot) : Prop where
  keys : v'.keys = v.keys
  before : v.job id = some e
  after : v'.job id = some e'
  queueId : e'.job.queueId = e.job.queueId
  other : ∀ k, k ≠ .job id → v'.row k = v.row k

theorem Moves.put (he : v.job id = some e) (hqueue : e'.job.queueId = e.job.queueId) :
    Moves id e e' v (v.put (.job id) e') where
  keys := rfl
  before := he
  after := Txn.View.put_row_self _ _ v
  queueId := hqueue
  other _ hk := Txn.View.put_row_ne _ v hk

theorem Moves.trans {v'' : Snapshot} {e'' : JobEntry} (h : Moves id e e' v v')
    (h' : Moves id e' e'' v' v'') : Moves id e e'' v v'' where
  keys := h'.keys.trans h.keys
  before := h.before
  after := h'.after
  queueId := h'.queueId.trans h.queueId
  other k hk := (h'.other k hk).trans (h.other k hk)

theorem Moves.job_ne (h : Moves id e e' v v') {i : JobId} (hi : i ≠ id) : v'.job i = v.job i :=
  h.other (.job i) (by simpa using hi)

theorem Moves.queue (h : Moves id e e' v v') (q : QueueId) : v'.queue q = v.queue q :=
  h.other (.queue q) (by simp)

-- What holds of every job still does if it holds of the one that has moved on.
theorem Moves.all (h : Moves id e e' v v') {R : JobEntry → Prop}
    (hall : ∀ i d, v.job i = some d → R d) (hR : R e') {i : JobId} {d : JobEntry}
    (hd : v'.job i = some d) : R d := by
  rcases eq_or_ne i id with rfl | hi
  · exact Option.some.inj (h.after.symm.trans hd) ▸ hR
  · exact hall i d (h.job_ne hi ▸ hd)

theorem Moves.serviceable (h : Moves id e e' v v') (hserved : Serviceable v) : Serviceable v' := by
  intro i d hd
  obtain ⟨q, hq, hpaused⟩ : ∃ q, v.queue d.job.queueId = some q ∧ q.paused = false := by
    refine h.all hserved ?_ hd
    rw [h.queueId]
    exact hserved id e h.before
  exact ⟨q, (h.queue _).trans hq, hpaused⟩

-- There is one job less of a kind that it has left.
theorem Moves.fewer (h : Moves id e e' v v') (hnodup : v.keys.Nodup) (hkey : Key.job id ∈ v.keys)
    {c : JobEntry → Bool} (hc : c e = true) (hc' : c e' = false) :
    (v'.jobsWhere c).length < (v.jobsWhere c).length := by
  rw [length_jobsWhere, length_jobsWhere, Snapshot.jobIds, h.keys, Snapshot.jobIds]
  have hcount := countP_change (nodup_jobIds hnodup) (mem_jobIds.mpr hkey)
    (f := fun i => (v'.job i).any c) (g := fun i => (v.job i).any c)
    (fun i hi => by rw [h.job_ne hi]) (by rw [h.after]; exact hc')
  have hleft : (v.job id).any c = true := by rw [h.before]; exact hc
  rw [hcount, if_pos hleft]
  exact Nat.lt_succ_self _

end Moves

section Times

-- A time after all the times in the rows.
theorem exists_later (now : Time) (v : Snapshot) (time : JobEntry → Option Time) :
    ∃ late, now ≤ late ∧ ∀ id e, Key.job id ∈ v.keys → v.job id = some e →
      ∀ x, time e = some x → x < late := by
  obtain ⟨bound, hbound⟩ :=
    (now :: v.jobIds.filterMap fun id => (v.job id).bind time).toFinset.exists_le
  refine ⟨bound + 1, ?_, fun id e hkey he x hx => ?_⟩
  · exact (hbound now (by simp)).trans (by linarith)
  · have hmem : x ∈ v.jobIds.filterMap fun id => (v.job id).bind time :=
      List.mem_filterMap.mpr ⟨id, mem_jobIds.mpr hkey, by rw [he]; exact hx⟩
    have hle := hbound x (List.mem_toFinset.mpr (List.mem_cons_of_mem _ hmem))
    linarith

-- Time passes.
def later (s : State) (now : Time) : State := ⟨{ s.mem with clock := now }, s.thread⟩

theorem step_later (hnow : s.mem.clock ≤ now) : system.step s (.tick now) = some (later s now) := by
  simp only [Txn.System.step, if_pos hnow]
  rfl

end Times

-- A state to go on from.
structure Resumable (m : Db) (s : State) : Prop where
  reachable : system.Reachable m s
  rest : AtRest s
  serviceable : Serviceable (committedView s.mem)

namespace Resumable

variable {s' : State}

theorem later (h : Resumable m s) (hnow : s.mem.clock ≤ now) : Resumable m (later s now) where
  reachable := h.reachable.tail (step_later hnow) trivial
  rest := h.rest
  serviceable := h.serviceable

theorem moves (h : Resumable m s) (hruns : Reaches system.step Resuming s s') (hrest : AtRest s')
    (hmoves : Moves id e e' (committedView s.mem) (committedView s'.mem)) : Resumable m s' where
  reachable := h.reachable.trans (hruns.mono fun _ _ _ _ => trivial)
  rest := hrest
  serviceable := hmoves.serviceable h.serviceable

-- A job that has moved on has left its kind.
theorem fewer (hm : Initial m) (h : Resumable m s)
    (hmoves : Moves id e e' (committedView s.mem) (committedView s'.mem)) {c : JobEntry → Bool}
    (hc : c e = true) (hc' : c e' = false) : ((committedView s'.mem).jobsWhere c).length <
      ((committedView s.mem).jobsWhere c).length := by
  refine hmoves.fewer (keyable_of_reachable hm h.reachable).nodup ?_ hc hc'
  refine listed_of_reachable hm h.reachable _ fun hnone => ?_
  exact Option.some_ne_none _ (hmoves.before.symm.trans hnone)

theorem none_of_empty (hm : Initial m) (h : Resumable m s) {c : JobEntry → Bool}
    (hempty : ((committedView s.mem).jobsWhere c).length = 0)
    (he : (committedView s.mem).job id = some e) : c e = false := by
  by_contra hc
  have hkey := listed_of_reachable hm h.reachable (.job id) fun hnone =>
    Option.some_ne_none _ (he.symm.trans hnone)
  have hmem : (id, e) ∈ (committedView s.mem).jobsWhere c :=
    mem_jobsWhere.mpr ⟨hkey, he, Bool.eq_true_of_not_eq_false hc⟩
  rw [List.length_eq_zero_iff.mp hempty] at hmem
  cases hmem

theorem exists_of_nonempty {c : JobEntry → Bool}
    (hsome : ((committedView s.mem).jobsWhere c).length ≠ 0) :
    ∃ id e, (committedView s.mem).job id = some e ∧ c e = true := by
  obtain ⟨p, hp⟩ := List.exists_mem_of_length_pos (Nat.pos_of_ne_zero hsome)
  obtain ⟨-, he, hc⟩ := mem_jobsWhere.mp hp
  exact ⟨p.1, p.2, he, hc⟩

end Resumable

section Registering

theorem exists_unusedWorker (v : Snapshot) : ∃ w, Key.worker w ∉ v.keys := by
  obtain ⟨w, hw⟩ := Infinite.exists_notMem_finset v.workerIds.toFinset
  refine ⟨w, fun hkey => hw ?_⟩
  exact List.mem_toFinset.mpr (List.mem_filterMap.mpr ⟨_, hkey, rfl⟩)

theorem runs_registerWorker {t : TxId} {name : String} {concurrency : Int}
    (hkey : Key.worker w ∉ v.keys) :
    Runs t (Settled v now) ((Call.registerWorker w name concurrency).body t) fun _ m =>
      ∃ row, Settled (v.with (.worker w) row) now m := by
  let row : Worker :=
    { id := w, name := name, status := .online, concurrency := concurrency
      lastHeartbeatAt := now, startedAt := now, stoppedAt := none }
  have hinsert : Runs t (Txn.Sees t v now) (insertWorker w row) fun _ m =>
      Txn.Sees t (v.with (.worker w) row) now m := by
    refine (Runs.insert row _ hkey).post fun r m h => ?_
    rcases h with ⟨-, -, hsees⟩ | ⟨-, hclash, -⟩
    · exact hsees
    · simp [Txn.View.clashes] at hclash
  refine .via (Txn.Sees t v now) (.bind ?_ fun _ => .pure fun m h => ⟨row, h⟩) fun m h => h.sees t
  refine .bind .begin fun r => .given fun hr => ?_
  subst hr
  exact .bind hinsert fun _ => .bind .commit fun _ => .rollback

-- A worker starts up.
theorem exists_registered (hm : Initial m) (h : Resumable m s) :
    ∃ s' w, Reaches system.step Resuming s s' ∧ Resumable m s' ∧ RegisteredWorker w s' := by
  obtain ⟨t, ht⟩ := Txn.exists_fresh s.mem
  obtain ⟨w, hkey⟩ := exists_unusedWorker (committedView s.mem)
  have hsettled := settled_of_rest hm h.reachable h.rest
  obtain ⟨r, m', ⟨row, hdone⟩, -, hruns⟩ :=
    call_alone (c := .registerWorker w "worker" 1) ht rfl hsettled (runs_registerWorker hkey)
  have hview : committedView m' = (committedView s.mem).with (.worker w) row :=
    committedView_of_settled hdone
  have hother : ∀ k, k ≠ .worker w → ((committedView s.mem).with (.worker w) row).row k =
      (committedView s.mem).row k := fun k hk => Txn.View.insert_row_ne row _ hk
  refine ⟨s.set t _ _ m', w, hruns.mono ?_, ⟨?_, hdone.unlocked, fun id e he => ?_⟩, ?_⟩
  · rintro - ev - (rfl | rfl) <;> trivial
  · exact h.reachable.trans (hruns.mono fun _ _ _ _ => trivial)
  · rw [Txn.Pool.set_mem, hview] at he ⊢
    obtain ⟨q, hq, hpaused⟩ := h.serviceable id e ((hother (.job id) (by simp)).symm.trans he)
    exact ⟨q, (hother (.queue _) (by simp)).trans hq, hpaused⟩
  · rw [RegisteredWorker, Txn.Pool.set_mem, hdone.committed, Txn.View.insert_row_self]
    rfl

end Registering

section Reclaiming

-- Whoever runs a job has let its lease expire.
structure Abandoned (m : Db) (s : State) : Prop where
  resumable : Resumable m s
  expired : ∀ id e, (committedView s.mem).job id = some e → e.job.status = .running →
    expiredWhere s.mem.clock e.job = true

theorem exists_abandoned (hm : Initial m) (h : Resumable m s) :
    ∃ s', Reaches system.step Resuming s s' ∧ Abandoned m s' := by
  obtain ⟨late, hlate, hleases⟩ :=
    exists_later s.mem.clock (committedView s.mem) fun e => e.job.leaseExpiresAt
  refine ⟨later s late, .tail .refl (step_later hlate) trivial, h.later hlate,
    fun id e he hrunning => ?_⟩
  have hok := (Run.inv hm (run_of_reachable h.reachable)).inv.ok id e he
  obtain ⟨lease, hlease⟩ := Option.isSome_iff_exists.mp (hok.row.leased.mpr hrunning)
  have hkey := listed_of_reachable hm h.reachable (.job id) fun hnone =>
    Option.some_ne_none _ (he.symm.trans hnone)
  have hbefore : lease < late := hleases id e hkey he lease hlease
  rw [expiredWhere, hlease, decide_eq_true_eq, Option.any_some, decide_eq_true_eq]
  exact ⟨hrunning, hbefore⟩

-- The sweeps take every job from the worker that has abandoned it.
theorem exists_idle (hm : Initial m)
    (hlock : (m.cell (.advisory REAPER_ADVISORY_LOCK_KEY)).committed = some ())
    (h : Abandoned m s) : ∃ s', Reaches system.step Resuming s s' ∧ Resumable m s' ∧
      ∀ id e, (committedView s'.mem).job id = some e → e.job.status ≠ .running := by
  have hdescend : ∀ s, Abandoned m s → (expiredJobs s).length ≠ 0 →
      ∃ s', Reaches system.step Resuming s s' ∧ Abandoned m s' ∧
        (expiredJobs s').length < (expiredJobs s).length := by
    intro s hs hsome
    obtain ⟨t, ht⟩ := Txn.exists_fresh s.mem
    have hreach := hs.resumable.reachable
    have hok := (Run.inv hm (run_of_reachable hreach)).inv.ok
    obtain ⟨s₁, hruns, -, hclock, hrest, hsweep⟩ :=
      sweep_alone hm hlock hreach hs.resumable.rest ht 0 id fun _ => Draw.zero
    have hjob : ∀ id e', (committedView s₁.mem).job id = some e' →
        ∃ e, (committedView s.mem).job id = some e ∧ (e' = e ∨ Recovered s.mem.clock e e') :=
      fun id e' he' => Sweeps.of_job (v := committedView s.mem) hok hsweep he'
    have hqueue : ∀ q, (committedView s₁.mem).queue q = (committedView s.mem).queue q :=
      fun q => hsweep.other (.queue q) (fun p _ => by simp) (by simp)
    refine ⟨s₁, hruns.mono ?_, ⟨⟨?_, hrest, ?_⟩, ?_⟩, ?_⟩
    · rintro - ev - (rfl | rfl) <;> trivial
    · exact hreach.trans (hruns.mono fun _ _ _ _ => trivial)
    · intro id e' he'
      obtain ⟨e, he, hchange⟩ := hjob id e' he'
      have hsame : e'.job.queueId = e.job.queueId := by
        rcases hchange with rfl | hrecovered
        · rfl
        · exact hrecovered.kept.2.1
      rw [hsame, hqueue]
      exact hs.resumable.serviceable id e he
    · intro id e' he' hrunning
      obtain ⟨e, he, rfl | hrecovered⟩ := hjob id e' he'
      · exact hclock ▸ hs.expired id e' he hrunning
      · exact absurd hrunning hrecovered.idle
    · have hleft := length_expiredJobs_of_sweeps hm hreach hclock hsweep
      rw [hleft]
      exact Nat.sub_lt (Nat.pos_of_ne_zero hsome) (by decide)
  obtain ⟨s', hruns, hs', hnone⟩ := Reaches.descend (P := Abandoned m) _ hdescend h
  refine ⟨s', hruns, hs'.resumable, fun id e he hrunning => ?_⟩
  have hfree := hs'.resumable.none_of_empty hm hnone he
  rw [hs'.expired id e he hrunning] at hfree
  cases hfree

end Reclaiming

section Requeueing

-- No job runs.
structure Idle (m : Db) (s : State) : Prop where
  resumable : Resumable m s
  idle : ∀ id e, (committedView s.mem).job id = some e → e.job.status ≠ .running

def inDlq (e : JobEntry) : Bool := e.job.status = .dead ∨ e.job.status = .cancelled

theorem requeue_alone (h : Settled v now s.mem) {t : TxId} (ht : t ∉ s.mem.opened)
    (he : v.job id = some e) (hparked : inDlq e = true) :
    ∃ s' e', Reaches system.step (Makes t (.requeue e.job.ownerId id)) s s' ∧ AtRest s' ∧
      s'.mem.clock = now ∧ e'.job.status = .pending ∧ Moves id e e' v (committedView s'.mem) := by
  let e' := e.amend (JobRepository.requeue e.job.ownerId now).set .requeued
  have hguard : (JobRepository.requeue e.job.ownerId now).guard e.job = true := by
    simp only [inDlq, decide_eq_true_eq] at hparked
    simp [JobRepository.requeue, hparked]
  have hbody : Runs t (Settled v now) ((Call.requeue e.job.ownerId id).body t) fun _ m =>
      Settled (v.put (.job id) e') now m :=
    .bind (runs_transition he hguard) fun r => .pure fun m h => h.2
  obtain ⟨r, m', hdone, -, hruns⟩ := call_alone ht rfl h hbody
  refine ⟨_, e', hruns, hdone.unlocked, hdone.clock, rfl, ?_⟩
  rw [Txn.Pool.set_mem, committedView_of_settled hdone]
  exact .put he rfl

-- Their owners requeue all jobs of the DLQ.
theorem exists_requeued (hm : Initial m) (h : Idle m s) :
    ∃ s', Reaches system.step Resuming s s' ∧ Idle m s' ∧
      ∀ id e, (committedView s'.mem).job id = some e → inDlq e = false := by
  have hdescend : ∀ s, Idle m s → ((committedView s.mem).jobsWhere inDlq).length ≠ 0 →
      ∃ s', Reaches system.step Resuming s s' ∧ Idle m s' ∧
        ((committedView s'.mem).jobsWhere inDlq).length <
          ((committedView s.mem).jobsWhere inDlq).length := by
    intro s hs hsome
    obtain ⟨t, ht⟩ := Txn.exists_fresh s.mem
    obtain ⟨id, e, he, hparked⟩ := Resumable.exists_of_nonempty hsome
    have hsettled := settled_of_rest hm hs.resumable.reachable hs.resumable.rest
    obtain ⟨s₁, e', hruns, hrest, -, hpending, hmoves⟩ := requeue_alone hsettled ht he hparked
    have hresumes : Reaches system.step Resuming s s₁ := hruns.mono fun _ ev _ hev => by
      rcases hev with rfl | rfl <;> trivial
    refine ⟨s₁, hresumes, ⟨hs.resumable.moves hresumes hrest hmoves, fun i d hd => ?_⟩, ?_⟩
    · exact hmoves.all (R := fun d => d.job.status ≠ .running) hs.idle (by simp [hpending]) hd
    · exact hs.resumable.fewer hm hmoves hparked (by simp [inDlq, hpending])
  obtain ⟨s', hruns, hs', hnone⟩ := Reaches.descend (P := Idle m) _ hdescend h
  exact ⟨s', hruns, hs', fun id e he => hs'.resumable.none_of_empty hm hnone he⟩

end Requeueing

section Working

-- Whatever has not succeeded is due.
structure Due (m : Db) (s : State) : Prop where
  resumable : Resumable m s
  due : ∀ id e, (committedView s.mem).job id = some e →
    e.job.status = .succeeded ∨ e.job.status = .pending ∧ e.job.runAt ≤ s.mem.clock

theorem exists_due (hm : Initial m) (h : Idle m s)
    (hnone : ∀ id e, (committedView s.mem).job id = some e → inDlq e = false) :
    ∃ s', Reaches system.step Resuming s s' ∧ Due m s' := by
  obtain ⟨late, hlate, hdue⟩ :=
    exists_later s.mem.clock (committedView s.mem) fun e => some e.job.runAt
  refine ⟨later s late, .tail .refl (step_later hlate) trivial, h.resumable.later hlate,
    fun id e he => ?_⟩
  have hkey := listed_of_reachable hm h.resumable.reachable (.job id) fun hnone =>
    Option.some_ne_none _ (he.symm.trans hnone)
  have hparked := hnone id e he
  simp only [inDlq, decide_eq_false_iff_not, not_or] at hparked
  cases hstatus : e.job.status with
  | pending => exact .inr ⟨rfl, (hdue id e hkey he _ rfl).le⟩
  | running => exact absurd hstatus (h.idle id e he)
  | succeeded => exact .inl rfl
  | cancelled => exact absurd hstatus hparked.2
  | dead => exact absurd hstatus hparked.1

def unfinished (e : JobEntry) : Bool := e.job.status ≠ .succeeded

-- Of the jobs that have not succeeded, one waits for none of the others.
theorem exists_first (hm : Initial m) (h : Due m s)
    (hsome : ((committedView s.mem).jobsWhere unfinished).length ≠ 0) :
    ∃ id e, (committedView s.mem).job id = some e ∧ unfinished e = true ∧
      unmetDep (committedView s.mem) e = false := by
  obtain ⟨rank, hrank⟩ := ranked_of_run hm (run_of_reachable h.resumable.reachable)
  obtain ⟨id₀, e₀, he₀, hc₀⟩ := Resumable.exists_of_nonempty hsome
  induction hn : rank id₀ using Nat.strong_induction_on generalizing id₀ e₀ with
  | _ n ih =>
      by_cases hunmet : unmetDep (committedView s.mem) e₀ = true
      · obtain ⟨d, hd, hany⟩ := List.any_eq_true.mp hunmet
        obtain ⟨dep, hdep, hstatus⟩ := (Option.any_eq_true _ _).mp hany
        exact ih (rank d) (hn ▸ hrank.falls id₀ d ⟨e₀, he₀, hd⟩) d dep hdep hstatus rfl
      · exact ⟨id₀, e₀, he₀, hc₀, Bool.eq_false_of_not_eq_true hunmet⟩

-- The worker asks for one job of the queue.
def oneOf (w : WorkerId) (e : JobEntry) (q : Queue) : ClaimArgs :=
  ⟨w, [e.job.queue, q.name], 1, 30, none, ⟨60, 200⟩⟩

theorem eligible_oneOf {q : Queue} (hq : v.queue e.job.queueId = some q) (hpaused : q.paused = false)
    (hpending : e.job.status = .pending) (hdue : e.job.runAt ≤ now)
    (hunmet : unmetDep v e = false) : Eligible (oneOf w e q) now v e := by
  cases hcap : q.maxConcurrency with
  | none =>
      left
      simp [uncappedWhere, baseFilters, hq, hpending, hdue, hpaused, hunmet, hcap, oneOf]
  | some cap =>
      right
      refine ⟨q, hq, ?_, ?_⟩
      · simp [cappedQueueWhere, hpaused, hcap, oneOf]
      · simp [cappedWhere, hpending, hdue]

-- Where no job runs, every claim that may take a job takes one.
theorem passOrder_ne_nil {a : ClaimArgs} (hlisted : ∀ k, v.row k ≠ none → k ∈ v.keys)
    (hidle : ∀ id e, v.job id = some e → e.job.status ≠ .running)
    (hchecks : ∀ id q, v.queue id = some q → q.checks = true) (he : v.job id = some e)
    (helig : Eligible a now v e) : passOrder a now v ≠ [] := by
  intro hnil
  rcases mem_passOrder_or hlisted he helig with hmem | ⟨cap, hcap, hrow, hlength, -⟩
  · rw [hnil] at hmem
    cases hmem
  · have hshare : share a now v (e.job.queueId, cap) = [] := by
      rw [passOrder, List.append_eq_nil_iff, List.flatMap_eq_nil_iff] at hnil
      exact hnil.2 _ hrow
    have hrunning : countRunning e.job.queueId v = 0 := by
      rw [countRunning, Nat.cast_eq_zero, List.length_eq_zero_iff, List.eq_nil_iff_forall_not_mem]
      intro p hp
      obtain ⟨-, hjob, hwhere⟩ := mem_jobsWhere.mp hp
      rw [decide_eq_true_eq] at hwhere
      exact hidle p.1 p.2 hjob hwhere.2
    obtain ⟨q, hq, hmax⟩ := Option.bind_eq_some_iff.mp hcap
    have hpositive : 1 ≤ cap := by
      have hchecked := hchecks _ q hq
      rw [Queue.checks, hmax, decide_eq_true_eq] at hchecked
      have hbounds : 1 ≤ cap ∧ cap ≤ 10000 := by simpa using hchecked.1
      exact hbounds.1
    rw [hshare, hrunning, List.length_nil] at hlength
    omega

-- A claim that is handed one job, which it completes.
theorem work_alone (hm : Initial m) (h : Resumable m s) {a : ClaimArgs}
    (hw : RegisteredWorker a.workerId s) (hlimit : a.limit = 1)
    (hsome : passOrder a s.mem.clock (committedView s.mem) ≠ []) :
    ∃ s' id e e', Reaches system.step Resuming s s' ∧ AtRest s' ∧ s'.mem.clock = s.mem.clock ∧
      e.job.status = .pending ∧ e'.job.status = .succeeded ∧
      Moves id e e' (committedView s.mem) (committedView s'.mem) := by
  obtain ⟨p, ps, hp⟩ := List.exists_cons_of_ne_nil hsome
  obtain ⟨t, ht⟩ := Txn.exists_fresh s.mem
  have hone : (passOrder a s.mem.clock (committedView s.mem)).take a.limit = [p] := by
    rw [hlimit, hp, List.take_succ_cons, List.take_zero]
  have hmem : p ∈ passOrder a s.mem.clock (committedView s.mem) := hp ▸ List.mem_cons_self
  obtain ⟨-, he, hpending, -⟩ := of_mem_passOrder hmem
  obtain ⟨m₁, v₁, hout, hdone, -, hruns⟩ := claim_alone hm h.reachable h.rest ht a
  rw [hone] at hruns
  let job := handedOut a s.mem.clock p
  let s₁ := s.set t (.claimJobs a) (some (.pure (.jobs [job]))) m₁
  obtain ⟨pass, hjob⟩ := hout.taken p (hone ▸ List.mem_singleton_self p)
  let e₁ := (p.2.claim t a.workerId a.leaseSeconds s.mem.clock pass).startAttempt a.workerId
    (p.2.job.attemptCount + 1) s.mem.clock
  have hid : job.id = p.1 := (keyable_of_reachable hm h.reachable).id p.1 p.2 he
  have hclaim : Moves p.1 p.2 e₁ (committedView s.mem) v₁ := by
    refine ⟨hout.keys, he, hjob, rfl, fun k hk => hout.other k fun q hq => ?_⟩
    rw [hone, List.mem_singleton] at hq
    exact hq ▸ hk
  -- the worker completes the job under the lease it has just been given
  obtain ⟨u, hu⟩ := Txn.exists_fresh s₁.mem
  have hmay : mayCall s₁ (.finalize t job a.workerId (.completeSuccess none)) = true := by
    have hthread : s₁.thread t = some ⟨.claimJobs a, some (.pure (.jobs [job]))⟩ :=
      Txn.Pool.set_thread_self s t _ _ m₁
    simp [mayCall, hthread]
  have hbody : Runs u (Settled v₁ s.mem.clock)
      ((Call.finalize t job a.workerId (.completeSuccess none)).body u) fun _ m =>
        Settled (v₁.put (.job job.id) (succeeded u t job a.workerId none s.mem.clock e₁))
          s.mem.clock m := by
    refine .bind (runs_completeSuccess t none (hid ▸ hjob) ?_) fun r => .pure fun m h => h.2
    exact decide_eq_true ⟨rfl, rfl⟩
  obtain ⟨r, m₂, hend, -, hruns'⟩ := call_alone hu hmay hdone hbody
  refine ⟨_, p.1, p.2, succeeded u t job a.workerId none s.mem.clock e₁,
    .trans (hruns.imp ?_) (hruns'.mono ?_), hend.unlocked, hend.clock, hpending, rfl, ?_⟩
  · rintro s₂ ev - hreaches - (rfl | rfl)
    · exact hw.of_reaches hreaches
    · trivial
  · rintro - ev - (rfl | rfl) <;> trivial
  · rw [Txn.Pool.set_mem, committedView_of_settled hend, hid]
    exact hclaim.trans (.put hjob rfl)

theorem exists_finished (hm : Initial m) (h : Due m s) (hw : RegisteredWorker w s) :
    ∃ s', Reaches system.step Resuming s s' ∧ Due m s' ∧
      ∀ id e, (committedView s'.mem).job id = some e → e.job.status = .succeeded := by
  have hdescend : ∀ s, Due m s ∧ RegisteredWorker w s →
      ((committedView s.mem).jobsWhere unfinished).length ≠ 0 →
      ∃ s', Reaches system.step Resuming s s' ∧ (Due m s' ∧ RegisteredWorker w s') ∧
        ((committedView s'.mem).jobsWhere unfinished).length <
          ((committedView s.mem).jobsWhere unfinished).length := by
    rintro s ⟨hs, hw⟩ hsome
    obtain ⟨id, e, he, hleft, hunmet⟩ := exists_first hm hs hsome
    obtain ⟨q, hq, hpaused⟩ := hs.resumable.serviceable id e he
    have hreach := hs.resumable.reachable
    have hinv := (Run.inv hm (run_of_reachable hreach)).inv
    have hidle : ∀ id e, (committedView s.mem).job id = some e → e.job.status ≠ .running := by
      intro id e he
      rcases hs.due id e he with hstatus | ⟨hstatus, -⟩ <;> simp [hstatus]
    obtain ⟨hpending, hdue⟩ : e.job.status = .pending ∧ e.job.runAt ≤ s.mem.clock := by
      refine (hs.due id e he).resolve_left fun hstatus => ?_
      simp [unfinished, hstatus] at hleft
    have hqueues := passOrder_ne_nil (a := oneOf w e q) (listed_of_reachable hm hreach) hidle
      (fun id q hq => hinv.queues id q (.inl hq)) he
      (eligible_oneOf hq hpaused hpending hdue hunmet)
    obtain ⟨s₁, i, d, d', hruns, hrest, hclock, hbefore, hafter, hmoves⟩ :=
      work_alone hm hs.resumable hw rfl hqueues
    have hdue' : Due m s₁ := by
      refine ⟨hs.resumable.moves hruns hrest hmoves, fun j x hx => ?_⟩
      rw [hclock]
      exact hmoves.all hs.due (.inl hafter) hx
    refine ⟨s₁, hruns, ⟨hdue', hw.of_reaches hruns⟩, ?_⟩
    exact hs.resumable.fewer hm hmoves (by simp [unfinished, hbefore]) (by simp [unfinished, hafter])
  obtain ⟨s', hruns, ⟨hs', -⟩, hnone⟩ :=
    Reaches.descend (P := fun s => Due m s ∧ RegisteredWorker w s) _ hdescend ⟨h, hw⟩
  refine ⟨s', hruns, hs', fun id e he => ?_⟩
  simpa [unfinished] using hs'.resumable.none_of_empty hm hnone he

end Working

-- Nothing that happens, whatever is cut off, leaves a job that cannot succeed any more: the
-- platform can go on, without new jobs, to a state where all jobs have succeeded. A worker that
-- starts does the work, so it is no matter which workers have been there before.
theorem every_job_can_succeed (hm : Initial m)
    (hlock : (m.cell (.advisory REAPER_ADVISORY_LOCK_KEY)).committed = some ())
    (h : system.Reachable m s) (hserved : Serviceable (committedView s.mem)) :
    ∃ s', Reaches system.step Resuming s s' ∧ AtRest s' ∧
      (∀ id e, committedJob s.mem id = some e →
        ∃ e', committedJob s'.mem id = some e' ∧ e'.job.status = .succeeded) ∧
      ∀ id e', committedJob s'.mem id = some e' → e'.job.status = .succeeded := by
  have htidy := Txn.Tidy.of_reaches hm.wf hm.unlocked (fun _ t c _ => closes_body t c) h
  obtain ⟨s₀, hcrash, hcommitted, hfree, hkeys, -⟩ :=
    @Txn.Tidy.crash Key Row Time Value _ Call _ _ system s htidy
  have hview : committedView s₀.mem = committedView s.mem := by
    rw [committedView, committedView, hkeys]
    exact congrArg _ (funext hcommitted)
  have hstart : Resumable m s₀ :=
    ⟨h.trans (hcrash.mono fun _ _ _ _ => trivial), hfree, hview.symm ▸ hserved⟩
  obtain ⟨sw, w, hrunsw, hsw, hw⟩ := exists_registered hm hstart
  obtain ⟨s₁, hruns₁, hs₁⟩ := exists_abandoned hm hsw
  obtain ⟨s₂, hruns₂, hs₂, hidle⟩ := exists_idle hm hlock hs₁
  obtain ⟨s₃, hruns₃, hs₃, hparked⟩ := exists_requeued hm ⟨hs₂, hidle⟩
  obtain ⟨s₄, hruns₄, hs₄⟩ := exists_due hm hs₃ hparked
  have hmade := hruns₁.trans (hruns₂.trans (hruns₃.trans hruns₄))
  obtain ⟨s', hruns', hs', hdone⟩ := exists_finished hm hs₄ (hw.of_reaches hmade)
  have hcut : Reaches system.step Resuming s s₀ := hcrash.mono fun _ ev _ hev => by
    obtain ⟨t, rfl⟩ := hev
    trivial
  have hruns : Reaches system.step Resuming s s' :=
    hcut.trans (hrunsw.trans (hmade.trans hruns'))
  refine ⟨s', hruns, hs'.resumable.rest, fun id e he => ?_, hdone⟩
  have hsome : ((s'.mem.cell (.job id)).committed).isSome = true := by
    refine hruns.invariant (P := fun s' => (s'.mem.cell (.job id)).committed.isSome = true) ?_ ?_
    · exact Option.isSome_of_eq_some he
    · exact fun s₁ ev s₂ _ hs hstep _ => Txn.System.stays hstep hs
  obtain ⟨e', he'⟩ := Option.isSome_iff_exists.mp hsome
  exact ⟨e', he', hdone id e' he'⟩

def servedRow (v : Snapshot) (id : JobId) : Bool :=
  (v.job id).all fun e => (v.queue e.job.queueId).any fun q => q.paused = false

-- Checked job by job.
theorem serviceable_of_rows (hwf : s.mem.WF)
    (h : (committedView s.mem).jobIds.all (servedRow (committedView s.mem)) = true) :
    Serviceable (committedView s.mem) := by
  intro id e he
  have hkey : Key.job id ∈ s.mem.keys := hwf.mem_of_committed he
  have hall := List.all_eq_true.mp h id (mem_jobIds.mpr hkey)
  rw [servedRow, he, Option.all_some] at hall
  obtain ⟨q, hq, hpaused⟩ := (Option.any_eq_true _ _).mp hall
  exact ⟨q, hq, of_decide_eq_true hpaused⟩

-- A claim cut off while it holds the job.
def halfwayEvents : List Event := createdEvents ++
  whole 2 (.registerWorker 5 "worker" 4) 4 ++ whole 3 (.claimJobs (exampleClaim 5)) 4

theorem every_job_can_succeed_halfway :
    ((stateAfter halfwayEvents).mem.cell (.job 7)).pending.isSome = true ∧
    ∃ s', Reaches system.step Resuming (stateAfter halfwayEvents) s' ∧
      ∃ e', committedJob s'.mem 7 = some e' ∧ e'.job.status = .succeeded := by
  have hreach := reachable_stateAfter halfwayEvents
  have hserved : Serviceable (committedView (stateAfter halfwayEvents).mem) :=
    serviceable_of_rows (Txn.System.wf exampleDb_initial.wf hreach) (by decide +kernel)
  have hsome : (committedJob (stateAfter halfwayEvents).mem 7).isSome = true := by decide +kernel
  obtain ⟨e, he⟩ := Option.isSome_iff_exists.mp hsome
  obtain ⟨s', hruns, -, hall, -⟩ :=
    every_job_can_succeed exampleDb_initial (by decide) hreach hserved
  exact ⟨by decide +kernel, s', hruns, hall 7 e he⟩

end Chronos
