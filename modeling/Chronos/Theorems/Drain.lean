import Chronos.Theorems.Claims
import Chronos.Theorems.ZombieLeases

namespace Chronos

open Txn (TxId)

variable {workerId : WorkerId} {m : Db} {s s' : Runner}

-- When _shutdown returns: no job is RUNNING for the worker, and every job that one of its claims
-- has returned to it has left RUNNING right after that claim.
def Drains (workerId : WorkerId) (m : Db) (ok : Runner → RunnerEvent → Bool) : Prop :=
  ∀ s s', RunnerRun workerId m ok s → s.step workerId .stop = some s' →
    (∀ id e, committedJob s'.pool.mem id = some e → leaseGuard workerId e.job = false) ∧
    ∀ claim job, s'.hasTask workerId claim job = true →
      ∃ e newer exit pass older, committedJob s'.pool.mem job.id = some e ∧
        e.log = newer ++ exit :: .claimed claim workerId pass :: older ∧ exit.isExit = true

-- Once the consume loop has ended, the worker claims no more.
def NotClaiming (workerId : WorkerId) (s : Runner) : Prop :=
  s.mode ≠ .consuming → ∀ t args {β : Type} (st : Txn.Stmt Key Row Time β) next,
    s.pool.thread t = some ⟨.claimJobs args, some (.op st next)⟩ → args.workerId ≠ workerId

theorem NotClaiming.pool_step {pool : State} {ev : Event} (h : NotClaiming workerId s)
    (hown : Runner.ownCall workerId s.mode ev = false ∨
      ∃ t claim job f, ev = .start t (.finalize claim job workerId f))
    (hstep : system.step s.pool ev = some pool) :
    NotClaiming workerId { s with pool := pool } := by
  intro hmode t args β st next ht
  cases (Txn.System.steps_of_step hstep).thread t with
  | same hsame => exact h hmode t args st next (hsame ▸ ht)
  | started c he hfresh hmay h' =>
      obtain ⟨rfl, -⟩ := Txn.Thread.mk.inj (Option.some.inj (h'.symm.trans ht))
      rcases hown with hown | ⟨t', claim, job, f, hev⟩
      · rintro rfl
        simp only [he, Runner.ownCall, decide_eq_false_iff_not, not_and, true_imp_iff] at hown
        exact hown hmode
      · rw [he] at hev
        cases hev
  | advanced c st' next' r hold h' =>
      obtain ⟨rfl, -⟩ := Txn.Thread.mk.inj (Option.some.inj (h'.symm.trans ht))
      exact h hmode t args st' next' hold
  | cutOff c st' next' he hold h' => cases h'.symm.trans ht

theorem NotClaiming.call {t claim : TxId} {job : Job} {f : Finalizer} {phase : Phase}
    (h : NotClaiming workerId s) (hcall : s.call workerId t claim job f phase = some s') :
    NotClaiming workerId s' := by
  obtain ⟨pool, hstep, rfl⟩ := Option.map_eq_some_iff.mp hcall
  exact h.pool_step (.inr ⟨t, claim, job, f, rfl⟩) hstep

theorem not_claiming {s : Runner} (hopen : ∀ t, s.pool.thread t ≠ none → t ∈ s.pool.mem.opened)
    (h : s.claiming workerId = false) {t : TxId} {args : JobRepository.ClaimArgs} {β : Type}
    {st : Txn.Stmt Key Row Time β} {next : β → Tx Value}
    (ht : s.pool.thread t = some ⟨.claimJobs args, some (.op st next)⟩) :
    args.workerId ≠ workerId := by
  rintro rfl
  have hany : s.claiming args.workerId = true := by
    refine List.any_eq_true.mpr ⟨t, hopen t (by simp [ht]), ?_⟩
    simp [ht]
  rw [h] at hany
  cases hany

theorem NotClaiming.step {e : RunnerEvent} (hm : Initial m) (hi : RunnerInv workerId m s)
    (h : NotClaiming workerId s) (hstep : s.step workerId e = some s') :
    NotClaiming workerId s' := by
  cases e with
  | pool ev =>
      simp only [Runner.step] at hstep
      split at hstep
      · cases hstep
      · rename_i hown
        obtain ⟨pool, hpool, rfl⟩ := Option.map_eq_some_iff.mp hstep
        exact h.pool_step (.inl (by simpa using hown)) hpool
  | begin claim job =>
      simp only [Runner.step, Option.ite_none_right_eq_some] at hstep
      obtain ⟨-, hs'⟩ := hstep
      cases hs'
      exact h
  | finish claim job f t =>
      simp only [Runner.step, Option.ite_none_right_eq_some] at hstep
      obtain ⟨-, hs'⟩ := hstep
      unfold Runner.finish at hs'
      split at hs'
      · exact h.call hs'
      · exact h.call hs'
  | escape claim job =>
      simp only [Runner.step, Option.ite_none_right_eq_some] at hstep
      obtain ⟨-, hs'⟩ := hstep
      cases hs'
      exact h
  | close claim job =>
      simp only [Runner.step] at hstep
      split at hstep
      · rw [Option.ite_none_right_eq_some] at hstep
        obtain ⟨-, hs'⟩ := hstep
        cases hs'
        exact h
      · rw [Option.ite_none_right_eq_some] at hstep
        obtain ⟨-, hs'⟩ := hstep
        cases hs'
        exact h
      · cases hstep
  | drain =>
      simp only [Runner.step, Option.ite_none_right_eq_some] at hstep
      obtain ⟨⟨-, hclaiming⟩, hs'⟩ := hstep
      cases hs'
      have hopen := (Run.inv hm (run_of_reachable hi.reach)).threads
      exact fun _ t args β st next ht => not_claiming hopen (by simpa using hclaiming) ht
  | cancel claim job t =>
      simp only [Runner.step, Option.ite_none_right_eq_some] at hstep
      obtain ⟨-, hs'⟩ := hstep
      unfold Runner.cancel at hs'
      split at hs'
      · cases hs'
        exact h
      · exact h.call hs'
      · obtain ⟨pool, hpool, rfl⟩ := Option.map_eq_some_iff.mp hs'
        exact h.pool_step (.inl rfl) hpool
      · cases hs'
        exact h
      · cases hs'
  | stop =>
      simp only [Runner.step, Option.ite_none_right_eq_some] at hstep
      obtain ⟨⟨hmode, -⟩, hs'⟩ := hstep
      cases hs'
      exact fun _ => h (by simp [hmode])

theorem notClaiming_of_run (hm : Initial m) (h : RunnerRun workerId m (keepsLeases workerId) s) :
    RunnerInv workerId m s ∧ NotClaiming workerId s := by
  refine h.invariant (P := fun s => RunnerInv workerId m s ∧ NotClaiming workerId s)
    ⟨.init hm, fun hmode => absurd rfl hmode⟩ fun s e s' _ ⟨hi, hn⟩ hstep hok => ?_
  exact ⟨hi.step hm hstep hok, hn.step hm hi hstep⟩

theorem phase_of_not_inflight (hopen : ∀ t, s.pool.thread t ≠ none → t ∈ s.pool.mem.opened)
    (h : s.inflight workerId = false) {claim : TxId} {job : Job}
    (hret : Returns s.pool claim job workerId) : s.phase claim job.id = .ended := by
  by_contra hne
  obtain ⟨args, jobs, ht, hw, hjob⟩ := hret
  have hany : s.inflight workerId = true := by
    refine List.any_eq_true.mpr ⟨claim, hopen claim (by simp [ht]), ?_⟩
    simp only [ht, decide_eq_true_eq]
    exact ⟨hw, List.any_eq_true.mpr ⟨job, hjob, by simpa using hne⟩⟩
  rw [h] at hany
  cases hany

-- What comes after a claim that is over.
theorem exit_after_claim {e : JobEntry} (hok : e.Ok) {claim : TxId} {pass : Pass}
    (hmem : .claimed claim workerId pass ∈ e.log) (hno : e.currentClaim ≠ some claim) :
    ∃ newer exit older, e.log = newer ++ exit :: .claimed claim workerId pass :: older ∧
      exit.isExit = true := by
  obtain ⟨newer, older, hlog⟩ := List.append_of_mem hmem
  rcases List.eq_nil_or_concat newer with rfl | ⟨newer, exit, rfl⟩
  · rw [JobEntry.currentClaim, hlog] at hno
    exact absurd rfl hno
  · rw [List.concat_eq_append, List.append_assoc, List.singleton_append] at hlog
    have hchain := hok.coherent.chain
    rw [hlog] at hchain
    have hrel := List.isChain_cons_cons.mp hchain.right_of_append
    exact ⟨newer, exit, older, hlog, (JobEvent.isExit_of_running hrel.1).1⟩

-- A drain leaves nothing behind in runs in which every cancellation reaches a task in its handler,
-- or one whose claim is over, and in which no call is cut off, and no task left by an exception that
-- _execute does not catch, under a claim in force.
theorem drain_leaves_nothing (hm : Initial m) : Drains workerId m (keepsLeases workerId) := by
  intro s s' hs hstop
  obtain ⟨hi, hn⟩ := notClaiming_of_run hm hs
  have hinv := Run.inv hm (run_of_reachable hi.reach)
  simp only [Runner.step, Option.ite_none_right_eq_some] at hstop
  obtain ⟨⟨hmode, hinflight⟩, hs'⟩ := hstop
  cases hs'
  rw [Bool.not_eq_true'] at hinflight
  have hended {claim : TxId} {job : Job} (hret : Returns s.pool claim job workerId) :
      s.phase claim job.id = .ended := phase_of_not_inflight hinv.threads hinflight hret
  refine ⟨fun id e he => ?_, fun claim job htask => ?_⟩
  · rw [Bool.eq_false_iff]
    intro hg
    obtain ⟨claim, hcur, hlive⟩ := hi.live hm he hg
    unfold Runner.live at hlive
    split at hlive
    · rename_i args β st next ht
      exact hn (by simp [hmode]) claim args st next ht (by simpa using hlive)
    · rename_i args jobs ht
      rw [decide_eq_true_eq] at hlive
      obtain ⟨hw, hany, hphase⟩ := hlive
      obtain ⟨job, hjob, hid⟩ := List.any_eq_true.mp hany
      rw [decide_eq_true_eq] at hid
      exact hphase (hid ▸ hended ⟨args, jobs, ht, hw, hjob⟩)
    · cases hlive
  · have hret : Returns s.pool claim job workerId := returns_of_mayCall (f := .releaseJob) htask
    have hno := hi.ended claim job.id (hended hret)
    obtain ⟨args, jobs, ht, rfl, hjob⟩ := hret
    obtain ⟨e, he, hhanded⟩ := (hinv.safe claim _ _ ht s.pool.mem .refl).1 job hjob
    obtain ⟨pass, hmem⟩ := hhanded.claimed
    rw [inForce, he, Option.any_some, decide_eq_false_iff_not] at hno
    obtain ⟨newer, exit, older, hlog, hexit⟩ := exit_after_claim (hinv.inv.ok job.id e he) hmem hno
    exact ⟨e, newer, exit, pass, older, he, hlog, hexit⟩

section Example

-- The handler of job 7 is cancelled, and the job released.
def drainEvents : List RunnerEvent :=
  executingEvents ++ [.drain, .cancel 2 (exampleJob 5 1 0) 3] ++
    (List.replicate 5 (Txn.Event.run 3)).map .pool ++ [.close 2 (exampleJob 5 1 0)]

theorem drain_leaves_nothing_released :
    ((runnerStateAfter (keepsLeases 5) drainEvents).step 5 .stop).map (fun s =>
      (committedJob s.pool.mem 7).map fun e => (e.job.status, e.job.attemptCount, e.log)) =
        some (some (.pending, 0, [.finished 2 3 .release, .claimed 2 5 .uncapped, .created 1])) ∧
    ∀ s', (runnerStateAfter (keepsLeases 5) drainEvents).step 5 .stop = some s' →
      ∀ id e, committedJob s'.pool.mem id = some e → leaseGuard 5 e.job = false :=
  ⟨by decide +kernel, fun s' hs' =>
    (drain_leaves_nothing exampleDb_initial _ s' (run_runnerStateAfter _ drainEvents) hs').1⟩

-- The cancellation finds the task not yet run, inside complete_success, inside complete_failure,
-- and inside release_job, after a handler that was cancelled from within; or the handler raises a
-- GeneratorExit in the grace window.
def leftBehindEvents : List (List RunnerEvent) :=
  [claimedEvents.map .pool ++ [.drain, .cancel 2 (exampleJob 5 1 0) 3],
    executingEvents ++ [.drain, .finish 2 (exampleJob 5 1 0) (.completeSuccess none) 3,
      .pool (.run 3), .pool (.run 3), .cancel 2 (exampleJob 5 1 0) 4],
    executingEvents ++ [.drain,
      .finish 2 (exampleJob 5 1 0) (.completeFailure "boom" .zero none) 3,
      .pool (.run 3), .pool (.run 3), .cancel 2 (exampleJob 5 1 0) 4],
    executingEvents ++ [.drain, .finish 2 (exampleJob 5 1 0) .releaseJob 3,
      .pool (.run 3), .pool (.run 3), .cancel 2 (exampleJob 5 1 0) 4],
    executingEvents ++ [.drain, .escape 2 (exampleJob 5 1 0)]]

-- _shutdown has returned, and job 7 is RUNNING for worker 5.
def leftBehind (events : List RunnerEvent) : Bool :=
  ((runnerStateAfter (fun _ _ => true) events).step 5 .stop).any fun s =>
    (committedJob s.pool.mem 7).any fun e => leaseGuard 5 e.job

theorem drain_leaves_behind : ¬ Drains 5 exampleDb (fun _ _ => true) ∧
    leftBehindEvents.all leftBehind = true := by
  refine ⟨fun h => ?_, by decide +kernel⟩
  have hleft : leftBehind (claimedEvents.map .pool ++ [.drain, .cancel 2 (exampleJob 5 1 0) 3]) =
      true := by decide +kernel
  obtain ⟨s', hs', hany⟩ := (Option.any_eq_true _ _).mp hleft
  obtain ⟨e, he, hg⟩ := (Option.any_eq_true _ _).mp hany
  have hfree := (h _ s' (run_runnerStateAfter _ _) hs').1 7 e he
  rw [hg] at hfree
  cases hfree

end Example

end Chronos
