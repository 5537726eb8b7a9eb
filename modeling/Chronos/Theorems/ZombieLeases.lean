import Chronos.Refinement.Checks
import Chronos.Worker.Leases

namespace Chronos

open Txn (TxId Reaches runAll)

variable {workerId : WorkerId} {m : Db}

-- The runs of a runner, among all other calls.
abbrev RunnerRun (workerId : WorkerId) (m : Db) (ok : Runner → RunnerEvent → Bool) : Runner → Prop :=
  Reaches (fun s => s.step workerId) (fun s e _ => ok s e = true) (Runner.init m)

-- Every job that is RUNNING for the worker is one that it is claiming or executing, and so is every
-- job whose lease a heartbeat of the worker pushes out.
def NoZombies (workerId : WorkerId) (m : Db) (ok : Runner → RunnerEvent → Bool) : Prop :=
  ∀ s, RunnerRun workerId m ok s →
    (∀ id e, committedJob s.pool.mem id = some e → leaseGuard workerId e.job = true →
      ∃ claim, e.currentClaim = some claim ∧ s.live workerId claim id = true) ∧
    ∀ t leaseSeconds rank rest s',
      s.pool.thread t = some ⟨.heartbeat workerId leaseSeconds rank, rest⟩ →
      s.step workerId (.pool (.run t)) = some s' →
        ∀ id e e', committedJob s.pool.mem id = some e → committedJob s'.pool.mem id = some e' →
          e'.job.leaseExpiresAt ≠ e.job.leaseExpiresAt →
            ∃ claim, e.currentClaim = some claim ∧ s.live workerId claim id = true

-- A heartbeat pushes out the leases that the worker holds, and no others.
theorem leased_of_heartbeat (hm : Initial m) {s s' : State} (hr : system.Reachable m s) {t : TxId}
    {leaseSeconds : ℚ} {rank : JobId → Nat} {rest : Option (Tx Value)}
    (ht : s.thread t = some ⟨.heartbeat workerId leaseSeconds rank, rest⟩)
    (hstep : system.step s (.run t) = some s') {id : JobId} {e e' : JobEntry}
    (he : committedJob s.mem id = some e) (he' : committedJob s'.mem id = some e')
    (hlease : e'.job.leaseExpiresAt ≠ e.job.leaseExpiresAt) : leaseGuard workerId e.job = true := by
  cases Run.published hm (run_of_reachable hr) hstep (permitted_none _ _ _) id with
  | same heq =>
      rw [heq, he, Option.some.injEq] at he'
      exact absurd (by rw [he']) hlease
  | changed t' c p op d d' hev ht' hd hd' heff =>
      obtain rfl : t = t' := Txn.Event.run.inj hev
      obtain ⟨rfl, -⟩ := Txn.Thread.mk.inj (Option.some.inj (ht.symm.trans ht'))
      obtain rfl : d = e := Option.some.inj (hd.symm.trans he)
      have happ := heff.applies
      cases heff.performs with
      | extend workerId leaseSeconds rank now =>
          cases happ with
          | extend w ls now e hlocked hrunning =>
              exact JobOp.leaseGuard_iff.mpr ⟨hrunning, hlocked⟩
  | created t' c p d hev ht' hnone hd hnew =>
      rw [he] at hnone
      cases hnone

-- No lease outlives its execution in runs in which nothing is cut off under a claim in force.
theorem no_zombie_leases (hm : Initial m) : NoZombies workerId m (keepsLeases workerId) := by
  intro s hs
  have h := runnerInv_of_run hm hs
  refine ⟨fun id e he hg => h.live hm he hg,
    fun t leaseSeconds rank rest s' ht hstep id e e' he he' hlease => ?_⟩
  simp only [Runner.step] at hstep
  split at hstep
  · cases hstep
  · obtain ⟨pool, hpool, rfl⟩ := Option.map_eq_some_iff.mp hstep
    exact h.live hm he (leased_of_heartbeat hm h.reach ht hpool he he' hlease)

section Example

def runnerStateAfter (check : Runner → RunnerEvent → Bool) (events : List RunnerEvent) : Runner :=
  (runAll (fun s => s.step 5) (fun s e _ => check s e) (Runner.init exampleDb) events).getD
    (Runner.init exampleDb)

theorem run_runnerStateAfter (check : Runner → RunnerEvent → Bool) (events : List RunnerEvent) :
    RunnerRun 5 exampleDb check (runnerStateAfter check events) :=
  Reaches.getD_runAll (fun s e _ => check s e) events

-- Worker 5 executes job 7.
def executingEvents : List RunnerEvent :=
  claimedEvents.map .pool ++ [.begin 2 (exampleJob 5 1 0)]

-- The connection is lost between the UPDATE of complete_success and its commit.
def lostFinalizeEvents : List RunnerEvent :=
  executingEvents ++ [.finish 2 (exampleJob 5 1 0) (.completeSuccess none) 3, .pool (.run 3),
    .pool (.run 3), .pool (.abort 3), .close 2 (exampleJob 5 1 0)]

-- claim_jobs raises after its commit.
def lostClaimEvents : List RunnerEvent :=
  (createdEvents ++ whole 2 (.claimJobs (exampleClaim 5)) 6 ++ [Txn.Event.abort 2]).map .pool

-- The handler of job 7 raises a GeneratorExit.
def escapedEvents : List RunnerEvent := executingEvents ++ [.escape 2 (exampleJob 5 1 0)]

def heartbeatEvents (t : TxId) (now : Time) : List RunnerEvent :=
  ([Txn.Event.tick now] ++ whole t (.heartbeat 5 30 id) 6).map .pool

-- Nobody executes job 7, which is RUNNING for worker 5.
def zombie (s : Runner) : Bool :=
  (committedJob s.pool.mem 7).any fun e => leaseGuard 5 e.job &&
    e.currentClaim.all fun claim => !s.live 5 claim 7

theorem not_noZombies {s : Runner} (hs : RunnerRun 5 exampleDb (fun _ _ => true) s)
    (h : zombie s = true) : ¬ NoZombies 5 exampleDb fun _ _ => true := by
  intro hno
  obtain ⟨e, he, hzombie⟩ := (Option.any_eq_true _ _).mp h
  rw [Bool.and_eq_true] at hzombie
  obtain ⟨claim, hcur, hlive⟩ := (hno s hs).1 7 e he hzombie.1
  simp [hcur, hlive] at hzombie

def leaseAfter (events : List RunnerEvent) : Option (Option Time) :=
  (committedJob (runnerStateAfter (fun _ _ => true) events).pool.mem 7).map fun e =>
    e.job.leaseExpiresAt

-- The ways to get a zombie, and the heartbeats at 20 and 40 that keep it.
theorem zombie_leases : ¬ NoZombies 5 exampleDb (fun _ _ => true) ∧
    [lostFinalizeEvents, lostClaimEvents, escapedEvents].all (fun events =>
      zombie (runnerStateAfter (fun _ _ => true) (events ++ heartbeatEvents 10 20 ++
        heartbeatEvents 11 40)) &&
      (leaseAfter (events ++ heartbeatEvents 10 20) = some (some 50)) &&
      (leaseAfter (events ++ heartbeatEvents 10 20 ++ heartbeatEvents 11 40) = some (some 70))) =
        true :=
  ⟨not_noZombies (run_runnerStateAfter _ lostFinalizeEvents) (by decide +kernel), by decide +kernel⟩

theorem no_zombie_leases_executing :
    (committedJob (runnerStateAfter (keepsLeases 5) executingEvents).pool.mem 7).map
      JobEntry.currentClaim = some (some 2) ∧
    ∀ id e, committedJob (runnerStateAfter (keepsLeases 5) executingEvents).pool.mem id = some e →
      leaseGuard 5 e.job = true → ∃ claim, e.currentClaim = some claim ∧
        (runnerStateAfter (keepsLeases 5) executingEvents).live 5 claim id = true :=
  ⟨by decide +kernel,
    (no_zombie_leases exampleDb_initial _ (run_runnerStateAfter (keepsLeases 5) executingEvents)).1⟩

end Example

end Chronos
