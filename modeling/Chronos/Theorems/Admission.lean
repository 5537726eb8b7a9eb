import Chronos.Refinement.Admission
import Chronos.Refinement.Checks
import Chronos.Worker.Intake
import Chronos.Worker.Leases

namespace Chronos

open JobRepository (ClaimArgs claimBatch claimFromQueues countRunning)
open Txn (Execs TxId Reaches)

section Slots

variable {concurrency : Nat} {s s' : Consumer} {ev : ConsumerEvent}

namespace Consumer

-- The slots that the awaited claim may fill.
def Position.requested : Position → Nat
  | .claiming limit _ => limit
  | _ => 0

-- Tasks in flight and slots asked for are no more than there are.
def Slots (concurrency : Nat) (s : Consumer) : Prop :=
  s.inflight.length + Position.requested s.position ≤ concurrency

theorem slots_resume (h : s.inflight.length ≤ concurrency) :
    Slots concurrency (s.resume concurrency) := by
  unfold resume
  split
  · exact h
  · dsimp only
    split
    · show s.inflight.length + (concurrency - s.inflight.length) ≤ concurrency
      omega
    · exact h

theorem Slots.inflight (h : Slots concurrency s) : s.inflight.length ≤ concurrency :=
  Nat.le_of_add_right_le h

-- A claim that returns no more than it was asked for.
theorem Slots.receive (h : Slots concurrency s) {tasks : List ExecutionId}
    (hlength : tasks.length ≤ Position.requested s.position) :
    Slots concurrency (s.receive concurrency tasks) := by
  unfold Consumer.receive
  split
  · exact h.inflight
  · apply slots_resume
    have hsum : (s.addTasks tasks).inflight.length = s.inflight.length + tasks.length :=
      List.length_append
    unfold Slots at h
    omega

theorem Slots.step (h : Slots concurrency s) (hstep : Steps concurrency s ev s') :
    Slots concurrency s' := by
  cases hstep with
  | snapshot limit hposition =>
      rw [Slots, hposition] at h
      exact h
  | claimed limit tasks hposition hlength hfresh =>
      apply h.receive
      rw [hposition]
      exact hlength
  | callback i committed hi =>
      have hle : (s.inflight.erase i).length ≤ s.inflight.length := List.length_erase_le
      show (s.inflight.erase i).length + Position.requested s.position ≤ concurrency
      unfold Slots at h
      omega
  | slept hposition => exact slots_resume h.inflight
  | wakeIdle hposition => exact slots_resume h.inflight
  | gathered hposition => exact slots_resume h.inflight
  | commit i hi => exact h
  | finish i x committed hi hx => exact h
  | drain => exact h
  | _ => exact h.inflight

-- While a claim is awaited its limit is what it was made with.
theorem Steps.requested (hstep : Steps concurrency s ev s') {limit : Nat} {snapped : Bool}
    (hposition : s.position = .claiming limit snapped) (hclaimed : ∀ tasks, ev ≠ .claimed tasks)
    (hraised : ev ≠ .raised) : ∃ snapped, s'.position = .claiming limit snapped := by
  cases hstep with
  | snapshot limit' h =>
      rw [h] at hposition
      cases hposition
      exact ⟨true, rfl⟩
  | claimed limit' tasks => exact absurd rfl (hclaimed tasks)
  | raised => exact absurd rfl hraised
  | commit i hi => exact ⟨snapped, hposition⟩
  | finish i x committed hi hx => exact ⟨snapped, hposition⟩
  | callback i committed hi => exact ⟨snapped, hposition⟩
  | drain => exact ⟨snapped, hposition⟩
  | slept h => cases hposition.symm.trans h
  | wake h => cases hposition.symm.trans h
  | wakeIdle h => cases hposition.symm.trans h
  | freed h => cases hposition.symm.trans h
  | gathered h => cases hposition.symm.trans h

-- Tasks that have not been reported are in flight.
theorem TasksInv.length_le (h : TasksInv s) {tasks : List ExecutionId} (htasks : tasks.Nodup)
    (hactive : ∀ i ∈ tasks, ∃ x, s.execution i = some x ∧ ∀ c, x ≠ .reported c) :
    tasks.length ≤ s.inflight.length := by
  refine (htasks.subperm fun i hi => ?_).length_le
  obtain ⟨x, hx, hne⟩ := hactive i hi
  exact h.inflight i x hx hne

end Consumer

end Slots

section Intake

variable {concurrency : Nat} {settings : ClaimArgs} {m : Db} {s s' : Intake} {ev : IntakeEvent}

-- What claim_jobs can return.
def Call.WithinLimit : Call → Value → Prop
  | .claimJobs args, v => ∀ jobs, v = .jobs jobs → jobs.length ≤ args.limit
  | _, _ => True

theorem body_withinLimit (t : TxId) (c : Call) : (c.body t).Yields c.WithinLimit := by
  cases c with
  | claimJobs args =>
      have hclaim : (ExecutionService.claimJobs t args).Yields
          fun jobs => jobs.length ≤ args.limit := by
        intro now
        refine yields_claimBatch.bind fun jobs hjobs => ?_
        refine Txn.Prog.yields_bind (fun _ => ?_) _
        exact fun _ _ => hjobs
      refine hclaim.bind fun jobs hjobs jobs' heq => ?_
      cases heq
      exact hjobs
  | _ => exact Txn.Prog.yields_true _

-- What holds in every run of a worker's intake: the awaited call is the one the loop has made for
-- its free slots, and what comes back fits into them.
structure IntakeInv (concurrency : Nat) (settings : ClaimArgs) (s : Intake) : Prop where
  opened : ∀ t, s.pool.thread t ≠ none → t ∈ s.pool.mem.opened
  yields : ∀ t c p, s.pool.thread t = some ⟨c, some p⟩ → p.Yields c.WithinLimit
  calling : ∀ t, s.call = some t → ∃ limit snapped rest,
    s.loop.position = .claiming limit snapped ∧
      s.pool.thread t = some ⟨.claimJobs { settings with limit := limit }, rest⟩
  tasks : s.loop.TasksInv
  slots : s.loop.Slots concurrency

theorem intakeInv_init (concurrency : Nat) (settings : ClaimArgs) (m : Db) :
    IntakeInv concurrency settings (Intake.init concurrency m) where
  opened _ ht := absurd rfl ht
  yields _ _ _ ht := nomatch ht
  calling _ ht := nomatch ht
  tasks := Consumer.tasksInv_init concurrency
  slots := Consumer.slots_resume (Nat.zero_le _)

theorem IntakeInv.pool_step (h : IntakeInv concurrency settings s) {e : Event} {pool : State}
    (hstep : system.step s.pool e = some pool) :
    IntakeInv concurrency settings { s with pool := pool } := by
  have hsteps := Txn.System.steps_of_step hstep
  constructor
  · exact hsteps.opened h.opened
  · intro t c p ht
    exact (hsteps.thread t).yields (Y := Call.WithinLimit) (fun t c => body_withinLimit t c)
      (h.yields t) ht
  · intro t hcall
    obtain ⟨limit, snapped, rest, hposition, ht⟩ := h.calling t hcall
    obtain ⟨rest', ht'⟩ := hsteps.call h.opened ht
    exact ⟨limit, snapped, rest', hposition, ht'⟩
  · exact h.tasks
  · exact h.slots

-- The answer is no longer than the limit that the loop stands at.
theorem IntakeInv.answer_le (h : IntakeInv concurrency settings s) {jobs : List Job}
    (hanswer : s.answer = some jobs) :
    jobs.length ≤ Consumer.Position.requested s.loop.position := by
  unfold Intake.answer at hanswer
  split at hanswer
  · rename_i c v hbind
    cases hanswer
    obtain ⟨t, hcall, ht⟩ := Option.bind_eq_some_iff.mp hbind
    obtain ⟨limit, snapped, rest, hposition, hthread⟩ := h.calling t hcall
    rw [hthread, Option.some.injEq, Txn.Thread.mk.injEq] at ht
    obtain ⟨rfl, rfl⟩ := ht
    rw [hposition]
    exact h.yields t _ _ hthread jobs rfl
  · cases hanswer

theorem IntakeInv.loop_step (h : IntakeInv concurrency settings s) {e : ConsumerEvent}
    {loop : Consumer} (hstep : s.loop.step concurrency e = some loop)
    (hclaimed : ∀ tasks, e ≠ .claimed tasks) (hraised : e ≠ .raised) :
    IntakeInv concurrency settings { s with loop := loop } := by
  have hsteps := Consumer.steps_of_step hstep
  refine ⟨h.opened, h.yields, fun t hcall => ?_, h.tasks.step hsteps, h.slots.step hsteps⟩
  obtain ⟨limit, snapped, rest, hposition, ht⟩ := h.calling t hcall
  obtain ⟨snapped', hposition'⟩ := hsteps.requested hposition hclaimed hraised
  exact ⟨limit, snapped', rest, hposition', ht⟩

theorem IntakeInv.step (h : IntakeInv concurrency settings s)
    (hstep : s.step concurrency settings ev = some s') : IntakeInv concurrency settings s' := by
  cases ev with
  | pool e =>
      obtain ⟨pool, hpool, rfl⟩ := Option.map_eq_some_iff.mp hstep
      exact h.pool_step hpool
  | call t =>
      simp only [Intake.step] at hstep
      split at hstep
      · rename_i limit snapped hposition hnone
        obtain ⟨pool, hpool, rfl⟩ := Option.map_eq_some_iff.mp hstep
        have hnext := h.pool_step hpool
        refine ⟨hnext.opened, hnext.yields, fun t' hcall => ?_, h.tasks, h.slots⟩
        obtain rfl := Option.some.inj hcall
        cases Txn.System.steps_of_step hpool with
        | start t c hfresh hmay =>
            exact ⟨limit, snapped, _, hposition, Txn.Pool.set_thread_self s.pool t _ _ _⟩
      · cases hstep
  | returned tasks =>
      simp only [Intake.step] at hstep
      split at hstep
      · rename_i jobs hanswer
        split at hstep
        · rename_i hok
          cases hstep
          have hfresh : s.loop.Fresh tasks :=
            ⟨hok.2.1, fun i hi => by simpa using List.all_eq_true.mp hok.2.2 i hi⟩
          refine ⟨h.opened, h.yields, fun t hcall => (nomatch hcall), h.tasks.receive hfresh, ?_⟩
          exact h.slots.receive (hok.1 ▸ h.answer_le hanswer)
        · cases hstep
      · cases hstep
  | loop e =>
      cases e with
      | claimed tasks => cases hstep
      | raised =>
          obtain ⟨loop, hloop, rfl⟩ := Option.map_eq_some_iff.mp hstep
          have hsteps := Consumer.steps_of_step hloop
          exact ⟨h.opened, h.yields, fun t hcall => (nomatch hcall), h.tasks.step hsteps,
            h.slots.step hsteps⟩
      | _ =>
          simp only [Intake.step, Option.map_eq_some_iff] at hstep
          obtain ⟨loop, hloop, rfl⟩ := hstep
          exact h.loop_step hloop (by simp) (by simp)

end Intake

-- Admission never exceeds what was asked for: claim_batch keeps to its limit and hands out no job
-- twice, whatever the others do meanwhile; from a capped queue it takes no more than the cap
-- leaves, in any order of the queues; and the tasks of a consume loop that is answered by such
-- calls never outnumber its slots.
theorem admission_bounded (t : TxId) (a : ClaimArgs) (now : Time) :
    (∀ (m : Db) steps jobs m', m.WF → Execs t (claimBatch t a now) m steps (some jobs) m' →
      (∀ s ∈ steps, JobsKeyed (s.1.view t)) →
      jobs.length ≤ a.limit ∧ (jobs.map Job.id).Nodup ∧ ∀ q cap k,
        (∀ s ∈ steps, CappedAt (s.1.view t) q cap ∧ k ≤ countRunning q (s.1.view t)) →
          (jobs.countP fun job => job.queueId = q : Int) ≤ max 0 (cap - k)) ∧
    (∀ m : Db, m.WF → JobsKeyed (m.view t) →
      ∃ jobs m', (claimBatch t a now).run t m = some (jobs, m') ∧ jobs.length ≤ a.limit ∧
        (jobs.map Job.id).Nodup ∧ ∀ q cap, CappedAt (m.view t) q cap →
          (jobs.countP fun job => job.queueId = q : Int) ≤
            max 0 (cap - countRunning q (m.view t))) ∧
    (∀ (m : Db) rows remaining, m.WF → JobsKeyed (m.view t) → (rows.map Prod.fst).Nodup →
      ∃ jobs m', (claimFromQueues t a now rows remaining).run t m = some (jobs, m') ∧
        jobs.length ≤ remaining ∧ (jobs.map Job.id).Nodup ∧ ∀ r ∈ rows,
          (jobs.countP fun job => job.queueId = r.1 : Int) ≤
            max 0 (r.2 - countRunning r.1 (m.view t))) ∧
    ∀ concurrency settings (m : Db) (s : Intake),
      Reaches (Intake.step concurrency settings) (fun _ _ _ => True)
        (Intake.init concurrency m) s →
      s.loop.inflight.length ≤ concurrency ∧ ∀ tasks : List ExecutionId, tasks.Nodup →
        (∀ i ∈ tasks, ∃ x, s.loop.execution i = some x ∧ ∀ c, x ≠ .reported c) →
          tasks.length ≤ concurrency := by
  refine ⟨fun m steps jobs m' hwf hexecs hkeyed => ?_, fun m hwf hkeyed => ?_,
    fun m rows remaining hwf hkeyed hrows => ?_, fun concurrency settings m s h => ?_⟩
  · have hfound : ∀ s ∈ steps, ∃ s' ∈ steps, s'.1 = s.1 := fun s hs => ⟨s, hs, rfl⟩
    obtain ⟨-, hadmits⟩ := observed_claimBatch (A := fun m => ∃ s ∈ steps, s.1 = m)
      (fun _ ⟨s, hs, heq⟩ => heq ▸ hkeyed s hs) m steps jobs m' hwf trivial hfound hexecs
    refine ⟨hexecs.yields yields_claimBatch, hadmits.distinct, fun q cap k hk => ?_⟩
    exact hadmits.shares q cap k fun _ ⟨s, hs, heq⟩ => heq ▸ hk s hs
  · exact claimBatch_alone a now hwf hkeyed
  · exact claimFromQueues_alone a now rows hrows remaining hwf hkeyed
  · have hinv : IntakeInv concurrency settings s :=
      h.invariant (intakeInv_init concurrency settings m) fun _ _ _ _ hinv hstep _ =>
        hinv.step hstep
    refine ⟨hinv.slots.inflight, fun tasks htasks hactive => ?_⟩
    exact (hinv.tasks.length_le htasks hactive).trans hinv.slots.inflight

section Example

def rowKeyed : Sigma Row → Bool
  | ⟨.job id, e⟩ => e.job.id = id
  | _ => true

theorem jobsKeyed_seed {rows : List (Sigma Row)} (h : rows.all rowKeyed = true) :
    JobsKeyed (.seed rows) := by
  intro id e he
  have hrow := List.all_eq_true.mp h ⟨.job id, e⟩ (List.of_mem_dlookup he)
  exact of_decide_eq_true hrow

-- Two jobs of a queue without a cap; of the queue whose cap is two one job runs and two wait.
def slotRows : List (Sigma Row) :=
  let plain : Queue := .fresh 0 0 "default"
  let capped : Queue := { Queue.fresh 1 0 "exports" with maxConcurrency := some 2 }
  let waiting (id : JobId) (queue : Queue) : JobEntry :=
    newRow 1 (JobService.buildJob id 0 queue (exampleBody none []) none 0) []
  let running : JobEntry := (waiting 9 capped).claim 1 6 30 0 .capped
  [⟨.queue 0, plain⟩, ⟨.queue 1, capped⟩, ⟨.job 7, waiting 7 plain⟩, ⟨.job 8, waiting 8 plain⟩,
    ⟨.job 9, running⟩, ⟨.job 10, waiting 10 capped⟩, ⟨.job 11, waiting 11 capped⟩]

def slotDb : Db := Txn.Store.seed slotRows 0

def slotClaim : ClaimArgs := ⟨5, ["default", "exports"], 5, 30, none, ⟨60, 200⟩⟩

theorem slotDb_settled : Txn.Settled (.seed slotRows) (0 : Time) slotDb := .seed (by decide) 0

theorem slotDb_keyed (t : TxId) : JobsKeyed (slotDb.view t) := by
  rw [(slotDb_settled.sees t).view]
  exact jobsKeyed_seed (by decide)

-- Two slots: the two jobs without a cap, then the one that the cap leaves; a task ends while the
-- second claim is under way.
def slotEvents : List IntakeEvent := List.flatten [
  [.call 2], List.replicate 10 (.pool (.run 2)),
  [.returned [1, 2], .loop (.commit 1), .loop (.finish 1), .loop (.callback 1), .loop .freed,
    .loop .gathered, .call 3],
  List.replicate 5 (.pool (.run 3)), [.loop (.finish 2), .loop (.callback 2)],
  List.replicate 6 (.pool (.run 3)), [.returned [3]]]

def slotState : Intake :=
  (Txn.runAll (Intake.step 2 slotClaim) (fun _ _ _ => true) (Intake.init 2 slotDb) slotEvents).getD
    (Intake.init 2 slotDb)

theorem admission_bounded_slots :
    (∃ steps jobs m', Execs 2 (claimBatch 2 slotClaim 0) slotDb steps (some jobs) m' ∧
      jobs.length ≤ 5) ∧
    (∃ jobs m', (claimBatch 2 slotClaim 0).run 2 slotDb = some (jobs, m') ∧
      jobs.map (fun job => (job.id, job.queueId)) = [(7, 0), (8, 0), (10, 1)] ∧
      (jobs.countP fun job => job.queueId = 1 : Int) ≤
        max 0 (2 - countRunning 1 (slotDb.view 2))) ∧
    (∃ jobs m', (claimFromQueues 2 slotClaim 0 [(1, 0), (0, 1)] 5).run 2 slotDb = some (jobs, m') ∧
      ∀ r ∈ [((1 : QueueId), (0 : Int)), (0, 1)],
        (jobs.countP fun job => job.queueId = r.1 : Int) ≤
          max 0 (r.2 - countRunning r.1 (slotDb.view 2))) ∧
    slotState.loop.inflight = [3] ∧ slotState.loop.inflight.length ≤ 2 := by
  obtain ⟨hothers, halone, hrows, hloop⟩ := admission_bounded 2 slotClaim 0
  refine ⟨?_, ?_, ?_, by decide +kernel, ?_⟩
  · obtain ⟨steps, jobs, m', -, hexecs, hsteps⟩ :=
      Txn.Execs.of_ready (p := claimBatch 2 slotClaim 0) claims_claimBatch slotDb_settled.wf
        (claimKeeps_refl (slotDb_keyed 2))
    have hwithin := hothers slotDb steps jobs m' slotDb_settled.wf hexecs
      fun s hs => (hsteps s hs).keyed
    exact ⟨steps, jobs, m', hexecs, hwithin.1⟩
  · have hjobs : ((claimBatch 2 slotClaim 0).run 2 slotDb).map (fun r =>
        r.1.map fun job => (job.id, job.queueId)) = some [(7, 0), (8, 0), (10, 1)] := by
      decide +kernel
    obtain ⟨jobs, m', hrun, -, -, hshares⟩ := halone slotDb slotDb_settled.wf (slotDb_keyed 2)
    rw [hrun] at hjobs
    exact ⟨jobs, m', hrun, Option.some.inj hjobs, hshares 1 2 ⟨_, rfl, rfl⟩⟩
  · obtain ⟨jobs, m', hrun, -, -, hshares⟩ := hrows slotDb [(1, 0), (0, 1)] 5 slotDb_settled.wf
      (slotDb_keyed 2) (by decide)
    exact ⟨jobs, m', hrun, hshares⟩
  · have hrun : Reaches (Intake.step 2 slotClaim) (fun _ _ _ => True) (Intake.init 2 slotDb)
        slotState := (Reaches.getD_runAll (fun _ _ _ => true) slotEvents).mono fun _ _ _ _ => trivial
    exact (hloop 2 slotClaim slotDb slotState hrun).1

end Example

end Chronos
