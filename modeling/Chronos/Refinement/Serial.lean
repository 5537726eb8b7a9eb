import Chronos.Theorems.ClaimOrder
import Chronos.Txn.Serial

namespace Chronos

open Txn (TxId Runs Sees Settled Drafts stmt)
open JobRepository ExecutionService

section Closing

open Txn.Prog (Closes)

variable {α : Type} {held : Prop} {t : TxId}

theorem closes_exit : (exit : Tx Unit).Closes held := fun _ => id

theorem closes_leave (a : α) : (exit >>= fun _ => pure a : Tx α).Closes held :=
  .rollback (.pure a)

theorem closes_finalize (tx claim : TxId) (job : Job) (u : GuardedUpdate) (how : Finish)
    (status : AttemptStatus) (error : Option String) (now : Time) :
    (finalize tx claim job u how status error now).Closes held := by
  refine .bind _ fun updated => ?_
  cases updated with
  | none => exact fun _ => closes_leave _
  | some row => exact .bind _ fun _ _ => closes_leave _

theorem closes_storeSummary (jobId : JobId) (summary : String) :
    (storeSummary jobId summary).Closes held :=
  .bind _ fun _ => .bind _ fun _ _ => closes_exit

theorem closes_completeFailure (tx claim : TxId) (job : Job) (workerId : WorkerId)
    (error : String) (rng : Draw) (summary : Option String) :
    (completeFailure tx claim job workerId error rng summary).Closes False := by
  unfold completeFailure
  cases decideFailure (policyOf job) job.attemptCount rng with
  | error err => exact .pure _
  | ok decision =>
      refine .begin fun now => .seq (closes_finalize _ _ _ _ _ _ _ _) fun done => ?_
      split
      · cases summary with
        | none => exact .pure _
        | some text =>
            dsimp only
            split
            · exact .pure _
            · exact .seq (closes_storeSummary _ _) fun _ => .pure _
      · exact .pure _

theorem closes_finalizer (tx claim : TxId) (job : Job) (workerId : WorkerId) (f : Finalizer) :
    (f.body tx claim job workerId).Closes False := by
  cases f with
  | completeSuccess result =>
      exact .seq (.bind _ fun now => closes_finalize _ _ _ _ _ _ _ _) fun _ => .pure _
  | completeFailure error rng summary =>
      exact .seq (closes_completeFailure _ _ _ _ _ _ _) fun _ => .pure _
  | releaseJob =>
      exact .seq (.bind _ fun now => closes_finalize _ _ _ _ _ _ _ _) fun _ => .pure _

theorem closes_reapOnce (offlineAfterSeconds : Int) (rank : JobId → Nat) (rng : JobId → Draw) :
    (reapOnce offlineAfterSeconds rank rng).Closes held := by
  refine .bind _ fun now => .bind _ fun gotLock => ?_
  cases gotLock with
  | none => exact fun _ => closes_leave _
  | some row =>
      refine .bind _ fun ids => .bind _ fun expired => .bind _ fun r => ?_
      cases r with
      | error err => exact closes_leave _
      | ok _ => exact .bind _ fun stale => .bind _ fun _ _ => closes_leave _

theorem closes_transition (ownerId : UserId) (jobId : JobId) (u : Time → GuardedUpdate)
    (event : JobEvent) (conflict : String) :
    (JobService.transition ownerId jobId u event conflict).Closes held := by
  refine .bind _ fun now => .bind _ fun row => ?_
  cases row with
  | some e => exact fun _ => closes_leave _
  | none =>
      refine .bind _ fun job => ?_
      cases job with
      | none => exact closes_leave _
      | some found => exact closes_leave _

theorem closes_enqueue (user : SessionUser) (data : JobCreate) (ids : FreshIds) :
    (JobService.enqueue t user data ids).Closes held := by
  refine .bind _ fun now => .bind _ fun found => ?_
  cases found with
  | error err => exact closes_leave _
  | ok found =>
      cases found with
      | some job => exact closes_leave _
      | none => exact .bind _ fun r => closes_leave _

theorem closes_createQueue (user : SessionUser) (projectId : Option ProjectId) (queue : Queue) :
    (QueueService.create user projectId queue).Closes held := by
  refine .bind _ fun now => .bind _ fun project => ?_
  cases project with
  | error err => exact closes_leave _
  | ok project =>
      refine .bind _ fun inserted => ?_
      cases inserted with
      | true => exact fun _ => closes_leave _
      | false => exact closes_leave _

theorem closes_updateQueue (user : SessionUser) (queueId : QueueId) (fields : List QueueField) :
    (QueueService.update user queueId fields).Closes held := by
  refine .bind _ fun now => .bind _ fun found => ?_
  cases found with
  | none => exact closes_leave _
  | some loaded =>
      dsimp only
      split
      · exact closes_leave _
      · exact .bind _ fun _ _ => closes_leave _

-- Every call gives up its rows before it returns.
theorem closes_body (t : TxId) (c : Call) : (c.body t).Closes False := by
  cases c with
  | registerWorker workerId name concurrency =>
      exact .seq (.bind _ fun now => .bind _ fun _ _ => closes_exit) fun _ => .pure _
  | heartbeat workerId leaseSeconds rank =>
      refine .seq (.bind _ fun now => .bind _ fun _ => .bind _ fun _ => .bind _ fun ids => ?_)
        fun _ => .pure _
      exact .bind _ fun extended _ => closes_leave _
  | setWorkerStatus workerId status stopped =>
      exact .seq (.bind _ fun now => .bind _ fun _ _ => closes_exit) fun _ => .pure _
  | claimJobs a =>
      refine .seq (.bind _ fun now => .bind _ fun jobs => .bind _ fun _ _ => ?_) fun _ => .pure _
      exact closes_leave _
  | finalize claim job workerId f => exact closes_finalizer _ _ _ _ _
  | reapOnce offlineAfterSeconds rank rng => exact .seq (closes_reapOnce _ _ _) fun _ => .pure _
  | enqueue user data ids => exact .seq (closes_enqueue _ _ _) fun _ => .pure _
  | cancel ownerId jobId => exact .seq (closes_transition _ _ _ _ _) fun _ => .pure _
  | requeue ownerId jobId => exact .seq (closes_transition _ _ _ _ _) fun _ => .pure _
  | createQueue user projectId queue => exact .seq (closes_createQueue _ _ _) fun _ => .pure _
  | updateQueue user queueId fields => exact .seq (closes_updateQueue _ _ _) fun _ => .pure _

end Closing

section Claims

variable {t : TxId} {a : ClaimArgs} {now : Time} {v v₀ w : Snapshot}

theorem quiet_lockRows (cond : JobEntry → Bool) (n : Nat) (ids : List JobId) :
    (lockRows cond n ids).All Txn.Stmt.Quiet := by
  induction ids generalizing n with
  | nil => cases n <;> trivial
  | cons id ids ih =>
      cases n with
      | zero => trivial
      | succ n =>
          refine .bind (.stmt rfl) fun row => ?_
          cases row with
          | none => exact ih (n + 1)
          | some e => exact (ih n).bind fun _ => trivial

theorem quiet_updateCandidates (pass : Pass) (es : List JobEntry) :
    (updateCandidates t a now pass es).All Txn.Stmt.Quiet := by
  induction es with
  | nil => trivial
  | cons e es ih => exact .bind (.stmt rfl) fun row => ih.bind fun _ => trivial

theorem quiet_claimWhere (pass : Pass) (scan : Snapshot → List JobId × (JobEntry → Bool))
    (n : Nat) : (claimWhere t a now pass scan n).All Txn.Stmt.Quiet :=
  .bind (.stmt rfl) fun found =>
    (quiet_lockRows found.2 n found.1).bind fun es => quiet_updateCandidates pass es

theorem quiet_lockQueues (queues : List String) (ids : List QueueId) :
    (lockQueues queues ids).All Txn.Stmt.Quiet := by
  induction ids with
  | nil => trivial
  | cons id ids ih => exact .bind (.stmt rfl) fun row => ih.bind fun _ => trivial

theorem quiet_claimFromQueues (rows : List (QueueId × Int)) (n : Nat) :
    (claimFromQueues t a now rows n).All Txn.Stmt.Quiet := by
  induction rows generalizing n with
  | nil => trivial
  | cons row rows ih =>
      rw [claimFromQueues]
      split
      · trivial
      · refine .bind (.stmt rfl) fun running => ?_
        dsimp only
        split
        · exact ih n
        · exact (quiet_claimWhere _ _ _).bind fun batch => (ih _).bind fun _ => trivial

theorem quiet_claimBatch : (claimBatch t a now).All Txn.Stmt.Quiet := by
  refine (quiet_claimWhere _ _ _).bind fun claimed => ?_
  dsimp only
  split
  · refine .bind (.bind (.stmt rfl) fun ids => ?_) fun _ => trivial
    exact (quiet_lockQueues _ _).bind fun rows => quiet_claimFromQueues rows _
  · trivial

-- The rows the passes claim, as they leave them.
def claimedRows (t : TxId) (a : ClaimArgs) (now : Time) (v : Snapshot) :
    List (JobId × JobEntry) :=
  let uncapped := ready a.aging now (uncappedWhere a now v) v
  ((uncapped.take a.limit).map fun p =>
    (p.1, p.2.claim t a.workerId a.leaseSeconds now .uncapped)) ++
  (((cappedRows a.queues v).flatMap (share a now v)).take (a.limit - uncapped.length)).map fun p =>
    (p.1, p.2.claim t a.workerId a.leaseSeconds now .capped)

-- The same rows with their attempts.
def startedRows (t : TxId) (a : ClaimArgs) (now : Time) (v : Snapshot) :
    List (JobId × JobEntry) :=
  (claimedRows t a now v).map fun p =>
    (p.1, p.2.startAttempt a.workerId p.2.job.attemptCount now)

def jobRows (rows : List (JobId × JobEntry)) : List (Sigma Row) :=
  rows.map fun p => ⟨.job p.1, p.2⟩

theorem keys_jobRows (rows : List (JobId × JobEntry)) :
    (jobRows rows).keys = (rows.map Prod.fst).map Key.job := by
  simp [jobRows, List.keys]

theorem nodup_jobRows {rows : List (JobId × JobEntry)} (h : (rows.map Prod.fst).Nodup) :
    (jobRows rows).keys.Nodup := by
  rw [keys_jobRows]
  exact h.map fun _ _ heq => Key.job.inj heq

theorem claim_eq_putAll (pass : Pass) (rows : List (JobId × JobEntry)) :
    v.claim t a now pass rows = v.putAll (jobRows (rows.map fun p =>
      (p.1, p.2.claim t a.workerId a.leaseSeconds now pass))) := by
  induction rows generalizing v with
  | nil => rfl
  | cons p rows ih => exact ih

theorem afterClaim_eq_putAll : afterClaim t a now v = v.putAll (jobRows (claimedRows t a now v)) := by
  rw [afterClaim, claim_eq_putAll, claim_eq_putAll, claimedRows, jobRows, jobRows, jobRows,
    List.map_append, Txn.View.putAll, Txn.View.putAll, Txn.View.putAll, List.foldl_append]

theorem keys_claimedRows : (claimedRows t a now v).map Prod.fst =
    ((passOrder a now v).take a.limit).map Prod.fst := by
  rw [take_passOrder, claimedRows, List.map_append, List.map_append, List.map_map, List.map_map]
  rfl

theorem jobs_claimedRows : (claimedRows t a now v).map (fun p => p.2.job) =
    ((passOrder a now v).take a.limit).map (handedOut a now) := by
  rw [take_passOrder, claimedRows, List.map_append, List.map_append, List.map_map, List.map_map]
  rfl

-- The insertion of the attempts.
theorem runs_startAttempts (workerId : WorkerId) {rows : List (JobId × JobEntry)}
    (hids : ∀ p ∈ rows, p.2.job.id = p.1) (hnodup : (rows.map Prod.fst).Nodup)
    (hrows : ∀ p ∈ rows, w.job p.1 = some p.2) (hnew : ∀ p ∈ rows, v₀.job p.1 ≠ some p.2) :
    Runs t (Drafts t v₀ w now) (startAttempts workerId now (rows.map fun p => p.2.job))
      fun _ m => Drafts t v₀ (w.putAll (jobRows (rows.map fun p =>
        (p.1, p.2.startAttempt workerId p.2.job.attemptCount now)))) now m := by
  induction rows generalizing w with
  | nil => exact .pure fun m h => h
  | cons p rows ih =>
      rw [List.map_cons, List.nodup_cons] at hnodup
      have hid := hids p List.mem_cons_self
      let e := p.2.startAttempt workerId p.2.job.attemptCount now
      have hwrite : Runs t (Drafts t v₀ w now) (writeJob p.2.job.id
          (JobEntry.startAttempt workerId p.2.job.attemptCount now)) fun r m => r = some e ∧
            Drafts t v₀ (w.put (.job p.1) e) now m := by
        rw [hid]
        exact .drafts_write (hrows p List.mem_cons_self) (hnew p List.mem_cons_self) _
      refine .bind hwrite fun row => .given fun _ => ?_
      refine ih (fun q hq => hids q (List.mem_cons_of_mem _ hq)) hnodup.2 (fun q hq => ?_)
        fun q hq => hnew q (List.mem_cons_of_mem _ hq)
      have hne : Key.job q.1 ≠ Key.job p.1 := fun heq =>
        hnodup.1 (Key.job.inj heq ▸ List.mem_map_of_mem hq)
      exact (Txn.View.put_row_ne _ w hne).trans (hrows q (List.mem_cons_of_mem _ hq))

-- What a call of claim_jobs leaves: the first jobs of the order have been handed out, each with
-- an attempt, and the other rows are as they were.
structure Assigns (t : TxId) (a : ClaimArgs) (now : Time) (v v' : Snapshot) : Prop where
  keys : v'.keys = v.keys
  taken : ∀ p ∈ (passOrder a now v).take a.limit, ∃ pass, v'.job p.1 =
    some ((p.2.claim t a.workerId a.leaseSeconds now pass).startAttempt a.workerId
      (p.2.job.attemptCount + 1) now)
  other : ∀ k, (∀ p ∈ (passOrder a now v).take a.limit, k ≠ .job p.1) → v'.row k = v.row k
  running : ∀ q, countRunning q v' = countRunning q (afterClaim t a now v)

theorem mem_claimedRows {p : JobId × JobEntry} (hp : p ∈ (passOrder a now v).take a.limit) :
    ∃ pass, (p.1, p.2.claim t a.workerId a.leaseSeconds now pass) ∈ claimedRows t a now v := by
  rw [take_passOrder] at hp
  rcases List.mem_append.mp hp with hp | hp
  · exact ⟨.uncapped, List.mem_append_left _ (List.mem_map_of_mem hp)⟩
  · exact ⟨.capped, List.mem_append_right _ (List.mem_map_of_mem hp)⟩

theorem of_mem_claimedRows {p : JobId × JobEntry} (hp : p ∈ claimedRows t a now v) :
    ∃ e pass, (p.1, e) ∈ (passOrder a now v).take a.limit ∧
      p.2 = e.claim t a.workerId a.leaseSeconds now pass := by
  rw [take_passOrder]
  rcases List.mem_append.mp hp with hp | hp
  · obtain ⟨q, hq, rfl⟩ := List.mem_map.mp hp
    exact ⟨q.2, .uncapped, List.mem_append_left _ hq, rfl⟩
  · obtain ⟨q, hq, rfl⟩ := List.mem_map.mp hp
    exact ⟨q.2, .capped, List.mem_append_right _ hq, rfl⟩

theorem nodup_claimedRows (hv : Keyable v) : ((claimedRows t a now v).map Prod.fst).Nodup := by
  rw [keys_claimedRows]
  exact (claimable_take hv).nodup

theorem keys_startedRows :
    (startedRows t a now v).map Prod.fst = (claimedRows t a now v).map Prod.fst := by
  rw [startedRows, List.map_map]
  rfl

theorem assigns_started (hv : Keyable v) :
    Assigns t a now v ((afterClaim t a now v).putAll (jobRows (startedRows t a now v))) where
  keys := by rw [Txn.View.putAll_keys, afterClaim_eq_putAll, Txn.View.putAll_keys]
  taken p hp := by
    obtain ⟨pass, hmem⟩ := mem_claimedRows (t := t) hp
    refine ⟨pass, Txn.View.putAll_row_mem (nodup_jobRows ?_) ?_⟩
    · rw [keys_startedRows]
      exact nodup_claimedRows hv
    · exact List.mem_map_of_mem (List.mem_map_of_mem hmem)
  other k hk := by
    have hnot : k ∉ (jobRows (claimedRows t a now v)).keys := by
      rw [keys_jobRows, keys_claimedRows, List.map_map]
      intro hmem
      obtain ⟨p, hp, heq⟩ := List.mem_map.mp hmem
      exact hk p hp heq.symm
    have hnot' : k ∉ (jobRows (startedRows t a now v)).keys := by
      rw [keys_jobRows, keys_startedRows, ← keys_jobRows]
      exact hnot
    rw [Txn.View.putAll_row_notMem hnot', afterClaim_eq_putAll, Txn.View.putAll_row_notMem hnot]
  running q := by
    have hjob : ∀ id, (Snapshot.job ((afterClaim t a now v).putAll
        (jobRows (startedRows t a now v))) id).map JobEntry.job =
          ((afterClaim t a now v).job id).map JobEntry.job := by
      intro id
      by_cases hid : ∃ p ∈ claimedRows t a now v, p.1 = id
      · obtain ⟨p, hp, rfl⟩ := hid
        have hnodup : (jobRows (startedRows t a now v)).keys.Nodup := by
          refine nodup_jobRows ?_
          rw [keys_startedRows]
          exact nodup_claimedRows hv
        have hafter : Snapshot.job ((afterClaim t a now v).putAll
            (jobRows (startedRows t a now v))) p.1 =
              some (p.2.startAttempt a.workerId p.2.job.attemptCount now) :=
          Txn.View.putAll_row_mem hnodup (List.mem_map_of_mem (List.mem_map_of_mem hp))
        have hbefore : (afterClaim t a now v).job p.1 = some p.2 := by
          rw [afterClaim_eq_putAll]
          exact Txn.View.putAll_row_mem (nodup_jobRows (nodup_claimedRows hv))
            (List.mem_map_of_mem hp)
        rw [hafter, hbefore]
        rfl
      · refine congrArg (Option.map JobEntry.job) (Txn.View.putAll_row_notMem ?_)
        rw [keys_jobRows, keys_startedRows, List.map_map]
        intro hin
        obtain ⟨p, hp, heq⟩ := List.mem_map.mp hin
        exact hid ⟨p, hp, Key.job.inj heq⟩
    unfold countRunning
    rw [length_jobsWhere, length_jobsWhere, Snapshot.jobIds, Txn.View.putAll_keys]
    refine congrArg Nat.cast (List.countP_congr fun id _ => ?_)
    have hsame := hjob id
    cases hb : (afterClaim t a now v).job id with
    | none => rw [Option.map_eq_none_iff.mp (hsame.trans (by rw [hb]; rfl))]
    | some e =>
        obtain ⟨e', he', hjobs⟩ := Option.map_eq_some_iff.mp (hsame.trans (by rw [hb]; rfl))
        rw [he', Option.any_some, Option.any_some, hjobs]

-- claim_jobs with nobody else at work.
theorem runs_claimJobs (hv : Keyable v) : Runs t (Settled v now) (claimJobs t a) fun jobs m =>
    jobs = ((passOrder a now v).take a.limit).map (handedOut a now) ∧
      ∃ v', Assigns t a now v v' ∧ Settled v' now m := by
  refine .bind .drafts_begin fun now' => .given fun hnow => ?_
  subst hnow
  have hclaim : Runs t (Drafts t v v now') (claimBatch t a now') fun jobs m =>
      jobs = ((passOrder a now' v).take a.limit).map (handedOut a now') ∧
        Drafts t v (afterClaim t a now' v) now' m :=
    ((runs_claimBatch hv).drafts v quiet_claimBatch).post fun jobs m h => ⟨h.1.1, h.1.2, h.2⟩
  refine .bind hclaim fun jobs => .given fun hjobs => ?_
  have hclaimed : ∀ p ∈ claimedRows t a now' v, (afterClaim t a now' v).job p.1 = some p.2 := by
    intro p hp
    rw [afterClaim_eq_putAll]
    exact Txn.View.putAll_row_mem (nodup_jobRows (nodup_claimedRows hv)) (List.mem_map_of_mem hp)
  have hstart : Runs t (Drafts t v (afterClaim t a now' v) now')
      (startAttempts a.workerId now' jobs) fun _ m => Drafts t v
        ((afterClaim t a now' v).putAll (jobRows (startedRows t a now' v))) now' m := by
    rw [hjobs, ← jobs_claimedRows (t := t)]
    refine runs_startAttempts a.workerId (fun p hp => ?_) (nodup_claimedRows hv) hclaimed ?_
    · obtain ⟨e, pass, hmem, heq⟩ := of_mem_claimedRows hp
      rw [heq]
      exact hv.id p.1 e (of_mem_passOrder (List.mem_of_mem_take hmem)).2.1
    · intro p hp hsame
      obtain ⟨e, pass, hmem, heq⟩ := of_mem_claimedRows hp
      obtain ⟨-, hjob, hpending, -⟩ := of_mem_passOrder (List.mem_of_mem_take hmem)
      obtain rfl := Option.some.inj (hjob.symm.trans hsame)
      rw [heq] at hpending
      cases hpending
  refine .bind hstart fun _ => .bind .drafts_commit fun _ => .bind .rollback fun _ => ?_
  exact .pure fun m h => ⟨hjobs, _, assigns_started hv, h⟩

end Claims

section Transitions

variable {t : TxId} {now : Time} {v : Snapshot} {e : JobEntry}

theorem amend_ne (e : JobEntry) (set : Job → Job) (event : JobEvent) : e.amend set event ≠ e := by
  intro heq
  have hlog := congrArg (fun d : JobEntry => d.log.length) heq
  simp [JobEntry.amend] at hlog

theorem runs_finalize {job : Job} {u : GuardedUpdate} (claim : TxId) (how : Finish)
    (status : AttemptStatus) (error : Option String) (he : v.job job.id = some e)
    (hguard : u.guard e.job = true) :
    Runs t (Drafts t v v now) (finalize t claim job u how status error now) fun done m =>
      done = true ∧ Settled (v.put (.job job.id) ((e.amend u.set (.finished claim t how)).finishAttempt
        job.attemptCount status error now)) now m := by
  let e₁ := e.amend u.set (.finished claim t how)
  let e₂ := e₁.finishAttempt job.attemptCount status error now
  have hupdate : Runs t (Drafts t v v now) (updateJob job.id (fun e => u.guard e.job)
      (JobEntry.amend u.set (.finished claim t how))) fun r m => r = some e₁ ∧
        Drafts t v (v.put (.job job.id) e₁) now m :=
    .drafts_update he hguard _
  refine .bind hupdate fun updated => .given fun hr => ?_
  subst hr
  have hwrite : Runs t (Drafts t v (v.put (.job job.id) e₁) now) (writeJob job.id
      (JobEntry.finishAttempt job.attemptCount status error now)) fun r m => r = some e₂ ∧
        Drafts t v ((v.put (.job job.id) e₁).put (.job job.id) e₂) now m := by
    refine .drafts_write (Txn.View.put_row_self _ _ v) (fun hsame => ?_) _
    exact amend_ne e _ _ (Option.some.inj (hsame.symm.trans he))
  rw [Txn.View.put_put] at hwrite
  refine .bind hwrite fun row => .given fun _ => .bind .drafts_commit fun _ => ?_
  exact .bind .rollback fun _ => .pure fun m h => ⟨rfl, h⟩

-- What a successful execution leaves of its job.
def succeeded (t claim : TxId) (job : Job) (workerId : WorkerId) (result : Option Json)
    (now : Time) (e : JobEntry) : JobEntry :=
  (e.amend (finishSuccess workerId result now).set (.finished claim t .success)).finishAttempt
    job.attemptCount .succeeded none now

theorem runs_completeSuccess {job : Job} {workerId : WorkerId} (claim : TxId)
    (result : Option Json) (he : v.job job.id = some e)
    (hguard : leaseGuard workerId e.job = true) :
    Runs t (Settled v now) (completeSuccess t claim job workerId result) fun done m =>
      done = true ∧
        Settled (v.put (.job job.id) (succeeded t claim job workerId result now e)) now m := by
  refine .bind .drafts_begin fun now' => .given fun hnow => ?_
  subst hnow
  exact runs_finalize claim .success .succeeded none he hguard

theorem runs_transition {ownerId : UserId} {id : JobId} {u : Time → GuardedUpdate}
    {event : JobEvent} {conflict : String} (he : v.job id = some e)
    (hguard : (u now).guard e.job = true) :
    Runs t (Settled v now) (JobService.transition ownerId id u event conflict) fun r m =>
      r = .ok (e.amend (u now).set event).job ∧
        Settled (v.put (.job id) (e.amend (u now).set event)) now m := by
  refine .bind .drafts_begin fun now' => .given fun hnow => ?_
  subst hnow
  have hupdate : Runs t (Drafts t v v now') (updateJob id (fun e => (u now').guard e.job)
      (JobEntry.amend (u now').set event)) fun r m => r = some (e.amend (u now').set event) ∧
        Drafts t v (v.put (.job id) (e.amend (u now').set event)) now' m :=
    .drafts_update he hguard _
  refine .bind hupdate fun row => .given fun hr => ?_
  subst hr
  exact .bind .drafts_commit fun _ => .bind .rollback fun _ => .pure fun m h => ⟨rfl, h⟩

end Transitions

section Sweep

variable {t : TxId} {now : Time} {v w : Snapshot} {rng : JobId → Draw}

-- The jobs a sweep finds, in the order it comes to them.
def expiredRows (rank : JobId → Nat) (now : Time) (v : Snapshot) : List (JobId × JobEntry) :=
  (v.jobsWhere fun e => expiredWhere now e.job).insertionSort fun p q => rank p.1 ≤ rank q.1

theorem scanJobs_expired (rank : JobId → Nat) : scanJobs (expiredWhere now) rank v =
    (expiredRows rank now v).map Prod.fst := by
  rw [expiredRows, List.map_insertionSort _ (fun a b => rank a ≤ rank b) Prod.fst]
  · rfl
  · exact fun _ _ _ _ => Iff.rfl

theorem mem_expiredRows {rank : JobId → Nat} {p : JobId × JobEntry} :
    p ∈ expiredRows rank now v ↔
      Key.job p.1 ∈ v.keys ∧ v.job p.1 = some p.2 ∧ expiredWhere now p.2.job = true := by
  rw [expiredRows, (List.perm_insertionSort _ _).mem_iff]
  exact mem_jobsWhere

theorem nodup_expiredRows {rank : JobId → Nat} (hv : v.keys.Nodup) :
    ((expiredRows rank now v).map Prod.fst).Nodup :=
  ((List.perm_insertionSort _ _).map Prod.fst).nodup_iff.mpr (nodup_jobsWhere hv _)

-- What a sweep makes of a job whose lease has expired.
def reclaimedEntry (rng : JobId → Draw) (now : Time) (e : JobEntry) : JobEntry :=
  let error := leaseExpiredError e.job.lockedBy
  match decideFailure (policyOf e.job) e.job.attemptCount (rng e.job.id) with
  | .error _ => e
  | .ok decision =>
      (e.finishAttempt e.job.attemptCount .lost (some error) now).amend
        (reclaimValues error decision now) (.reclaimed decision.retry)

-- The locks of a sweep that is alone.
abbrev LocksAlone (t : TxId) (w : Snapshot) (now : Time) (held : List (JobId × JobEntry)) :
    Db → Prop :=
  LocksRows t (fun _ => true) w now held

theorem LocksRows.write {held : List (JobId × JobEntry)} {m : Db} {p : JobId × JobEntry}
    (h : LocksAlone t w now (p :: held) m) (hnew : p.1 ∉ held.map Prod.fst) (e : JobEntry) :
    LocksAlone t (w.put (.job p.1) e) now ((p.1, e) :: held) (m.own t (.job p.1) e) where
  among := (h.claim hnew rfl e).among
  rows q hq := by
    rcases List.mem_cons.mp hq with rfl | hq
    · exact Txn.View.put_row_self _ _ w
    · exact (h.claim hnew rfl e).rows q hq
  locked q hq := by
    rcases List.mem_cons.mp hq with rfl | hq
    · rw [Txn.Store.own_cell_self]
    · exact (h.claim hnew rfl e).locked q hq

theorem runs_writeLocked {held : List (JobId × JobEntry)} {id : JobId} {e : JobEntry}
    (hnew : id ∉ held.map Prod.fst) (set : JobEntry → JobEntry) :
    Runs t (LocksAlone t w now ((id, e) :: held)) (writeJob id set) fun _ m =>
      LocksAlone t (w.put (.job id) (set e)) now ((id, set e) :: held) m := by
  refine .stmt fun m h => ⟨some (set e), m.own t (.job id) (set e), ?_, h.write hnew (set e)⟩
  have hlocked : (m.cell (.job id)).pending = some (t, e) := h.locked (id, e) List.mem_cons_self
  simp only [Txn.exec, hlocked, if_true]

theorem runs_reapJobs {rows : List (JobId × JobEntry)} (hids : ∀ p ∈ rows, p.2.job.id = p.1)
    (hclaimed : ∀ p ∈ rows, 1 ≤ p.2.job.attemptCount) (hnodup : (rows.map Prod.fst).Nodup) :
    Runs t (LocksAlone t w now rows) (reapJobs rng now (rows.map Prod.snd)) fun r m =>
      r = .ok () ∧ Sees t (w.putAll (jobRows (rows.map fun p =>
        (p.1, reclaimedEntry rng now p.2)))) now m := by
  induction rows generalizing w with
  | nil => exact .pure fun m h => ⟨rfl, Txn.sees_iff_among.mpr h.among⟩
  | cons p rows ih =>
      obtain ⟨id, e⟩ := p
      rw [List.map_cons, List.nodup_cons] at hnodup
      have hid : e.job.id = id := hids (id, e) List.mem_cons_self
      obtain ⟨decision, hd⟩ := decideFailure_ok (policyOf e.job) (rng e.job.id)
        (hclaimed (id, e) List.mem_cons_self)
      have hentry : reclaimedEntry rng now e = (e.finishAttempt e.job.attemptCount .lost
          (some (leaseExpiredError e.job.lockedBy)) now).amend
            (reclaimValues (leaseExpiredError e.job.lockedBy) decision now)
            (.reclaimed decision.retry) := by
        rw [reclaimedEntry, hd]
      rw [List.map_cons, reapJobs, hid]
      refine .bind (runs_writeLocked hnodup.1 _) fun _ => ?_
      rw [← hid, hd, hid]
      refine .bind (runs_writeLocked hnodup.1 _) fun _ => ?_
      rw [Txn.View.put_put, ← hentry]
      refine (ih (fun q hq => hids q (List.mem_cons_of_mem _ hq))
        (fun q hq => hclaimed q (List.mem_cons_of_mem _ hq)) hnodup.2).pre fun m h => ?_
      exact ⟨h.among, fun q hq => h.rows q (List.mem_cons_of_mem _ hq),
        fun q hq => h.locked q (List.mem_cons_of_mem _ hq)⟩

def markedOffline (now : Time) (row : Worker) : Worker :=
  { row with status := .offline, stoppedAt := some now }

-- Some workers marked OFFLINE.
structure Marks (now : Time) (ids : List WorkerId) (w w' : Snapshot) : Prop where
  keys : w'.keys = w.keys
  marked : ∀ id ∈ ids, w'.worker id = (w.worker id).map (markedOffline now)
  other : ∀ k, (∀ id ∈ ids, k ≠ .worker id) → w'.row k = w.row k

theorem runs_markStaleOffline {offlineAfterSeconds : Int} {ids : List WorkerId}
    (hstale : ∀ id ∈ ids, ∃ row, w.worker id = some row ∧
      staleWhere offlineAfterSeconds now row = true) (hnodup : ids.Nodup) :
    Runs t (Sees t w now) (markStaleOffline offlineAfterSeconds now ids) fun _ m =>
      ∃ w', Marks now ids w w' ∧ Sees t w' now m := by
  induction ids generalizing w with
  | nil => exact .pure fun m h => ⟨w, ⟨rfl, by simp, fun _ _ => rfl⟩, h⟩
  | cons id ids ih =>
      obtain ⟨row, hrow, hwhere⟩ := hstale id List.mem_cons_self
      rw [List.nodup_cons] at hnodup
      have hne : ∀ i ∈ ids, Key.worker i ≠ Key.worker id := fun i hi heq =>
        hnodup.1 (Key.worker.inj heq ▸ hi)
      have hmark : Runs t (Sees t w now) (recheckWorker id (staleWhere offlineAfterSeconds now)
          (markedOffline now)) fun r m => r = some (markedOffline now row) ∧
            Sees t (w.put (.worker id) (markedOffline now row)) now m :=
        .recheck hrow hwhere _
      refine .bind hmark fun r => .given fun _ => ?_
      refine (ih (fun i hi => ?_) hnodup.2).post fun _ m h => ?_
      · obtain ⟨row', hrow', hwhere'⟩ := hstale i (List.mem_cons_of_mem _ hi)
        exact ⟨row', (Txn.View.put_row_ne _ w (hne i hi)).trans hrow', hwhere'⟩
      · obtain ⟨w', hmarks, hsees⟩ := h
        have hself : Snapshot.worker (w.put (.worker id) (markedOffline now row)) id =
            some (markedOffline now row) := Txn.View.put_row_self _ _ w
        refine ⟨w', ⟨hmarks.keys, fun i hi => ?_, fun k hk => ?_⟩, hsees⟩
        · rcases List.mem_cons.mp hi with rfl | hi
          · have hkept := hmarks.other (.worker i) fun j hj => Ne.symm (hne j hj)
            exact (hkept.trans hself).trans (by rw [hrow]; rfl)
          · refine (hmarks.marked i hi).trans ?_
            exact congrArg (Option.map (markedOffline now)) (Txn.View.put_row_ne _ w (hne i hi))
        · rw [hmarks.other k fun i hi => hk i (List.mem_cons_of_mem _ hi)]
          exact Txn.View.put_row_ne _ w (hk id List.mem_cons_self)

-- What a sweep leaves: the first hundred expired jobs reclaimed, the stale workers marked, and
-- the other rows as they were.
structure Sweeps (offlineAfterSeconds : Int) (rank : JobId → Nat) (rng : JobId → Draw)
    (now : Time) (v v' : Snapshot) : Prop where
  keys : v'.keys = v.keys
  reclaimed : ∀ p ∈ (expiredRows rank now v).take expiredLimit,
    v'.job p.1 = some (reclaimedEntry rng now p.2)
  marked : ∀ id row, v.worker id = some row → v'.worker id =
    some (if staleWhere offlineAfterSeconds now row then markedOffline now row else row)
  other : ∀ k, (∀ p ∈ (expiredRows rank now v).take expiredLimit, k ≠ .job p.1) →
    (∀ id, k ≠ .worker id) → v'.row k = v.row k

def staleWorkers (offlineAfterSeconds : Int) (now : Time) (v : Snapshot) : List WorkerId :=
  v.workerIds.filter fun id => (v.worker id).any (staleWhere offlineAfterSeconds now)

theorem nodup_workerIds (hv : v.keys.Nodup) : v.workerIds.Nodup := by
  refine hv.filterMap fun k k' id hk hk' => ?_
  cases k <;> cases k' <;> simp_all [Key.workerId]

-- The expired jobs that one sweep takes.
def sweptRows (rank : JobId → Nat) (now : Time) (v : Snapshot) : List (JobId × JobEntry) :=
  (expiredRows rank now v).take expiredLimit

-- The rows once the sweep has reclaimed its jobs.
def reclaimedView (rng : JobId → Draw) (rank : JobId → Nat) (now : Time) (v : Snapshot) :
    Snapshot :=
  v.putAll (jobRows ((sweptRows rank now v).map fun p => (p.1, reclaimedEntry rng now p.2)))

section ReapAlone

variable {offlineAfterSeconds : Int} {rank : JobId → Nat}

theorem mem_sweptRows {p : JobId × JobEntry} (hp : p ∈ sweptRows rank now v) :
    v.job p.1 = some p.2 ∧ expiredWhere now p.2.job = true :=
  (mem_expiredRows.mp (List.mem_of_mem_take hp)).2

theorem nodup_sweptRows (hv : v.keys.Nodup) : ((sweptRows rank now v).map Prod.fst).Nodup :=
  ((List.take_sublist _ _).map Prod.fst).nodup (nodup_expiredRows hv)

theorem reclaimedView_mem (hv : v.keys.Nodup) {p : JobId × JobEntry}
    (hp : p ∈ sweptRows rank now v) :
    (reclaimedView rng rank now v).row (.job p.1) = some (reclaimedEntry rng now p.2) := by
  refine Txn.View.putAll_row_mem (nodup_jobRows ?_) (List.mem_map_of_mem (List.mem_map_of_mem hp))
  rw [List.map_map]
  exact nodup_sweptRows hv

theorem reclaimedView_other {k : Key} (hk : ∀ p ∈ sweptRows rank now v, k ≠ .job p.1) :
    (reclaimedView rng rank now v).row k = v.row k := by
  refine Txn.View.putAll_row_notMem ?_
  rw [keys_jobRows, List.map_map, List.map_map]
  intro hin
  obtain ⟨p, hp, heq⟩ := List.mem_map.mp hin
  exact hk p hp heq.symm

theorem reclaimedView_worker (id : WorkerId) :
    (reclaimedView rng rank now v).worker id = v.worker id :=
  reclaimedView_other fun _ _ => by simp

theorem reclaimedView_stale : staleWorkers offlineAfterSeconds now (reclaimedView rng rank now v) =
    staleWorkers offlineAfterSeconds now v := by
  have hids : (reclaimedView rng rank now v).workerIds = v.workerIds := by
    rw [Snapshot.workerIds, reclaimedView, Txn.View.putAll_keys, Snapshot.workerIds]
  simp only [staleWorkers, hids, reclaimedView_worker]

theorem runs_lockReaper (hlock : v.row (.advisory REAPER_ADVISORY_LOCK_KEY) = some ()) :
    Runs t (Settled v now) (stmt (.lock (.advisory REAPER_ADVISORY_LOCK_KEY) fun _ => true))
      fun r m => r = some () ∧ Sees t v now m := by
  refine .stmt fun m h => ⟨some (), m.own t (.advisory REAPER_ADVISORY_LOCK_KEY) (), ?_, rfl, ?_⟩
  · rw [(h.sees t).exec_lock hlock, if_pos rfl]
  · exact (h.sees t).keep hlock

theorem runs_lockExpired : Runs t (Sees t v now) (lockRows (fun e => expiredWhere now e.job)
    expiredLimit ((expiredRows rank now v).map Prod.fst)) fun es m =>
      es = (sweptRows rank now v).map Prod.snd ∧
        LocksAlone t v now (sweptRows rank now v) m := by
  have hlocked : Runs t (LocksAlone t v now []) (lockRows (fun e => expiredWhere now e.job)
      expiredLimit ((expiredRows rank now v).map Prod.fst)) fun es m =>
        es = ((unheld (fun _ => true) (expiredRows rank now v)).take expiredLimit).map Prod.snd ∧
          LocksAlone t v now
            ([] ++ (unheld (fun _ => true) (expiredRows rank now v)).take expiredLimit) m :=
    runs_lockRows (fun p hp => (mem_expiredRows.mp hp).2) expiredLimit
  rw [unheld_true] at hlocked
  exact hlocked.pre fun m h => ⟨Txn.sees_iff_among.mp h, by simp, by simp⟩

theorem runs_reapSwept (hv : Keyable v)
    (hclaimed : ∀ id e, v.job id = some e → e.job.status = .running → 1 ≤ e.job.attemptCount) :
    Runs t (LocksAlone t v now (sweptRows rank now v))
      (reapJobs rng now ((sweptRows rank now v).map Prod.snd)) fun r m =>
        r = .ok () ∧ Sees t (reclaimedView rng rank now v) now m := by
  refine runs_reapJobs (fun p hp => hv.id p.1 p.2 (mem_sweptRows hp).1) (fun p hp => ?_)
    (nodup_sweptRows hv.nodup)
  obtain ⟨hjob, hexpired⟩ := mem_sweptRows hp
  rw [expiredWhere, decide_eq_true_eq] at hexpired
  exact hclaimed p.1 p.2 hjob hexpired.1

theorem runs_markStale (hv : v.keys.Nodup) :
    Runs t (Sees t v now)
      (markStaleOffline offlineAfterSeconds now (staleWorkers offlineAfterSeconds now v))
      fun _ m => ∃ w', Marks now (staleWorkers offlineAfterSeconds now v) v w' ∧
        Sees t w' now m := by
  refine runs_markStaleOffline (fun id hid => ?_) ((nodup_workerIds hv).filter _)
  rw [staleWorkers, List.mem_filter] at hid
  exact (Option.any_eq_true _ _).mp hid.2

theorem sweeps_of_marks {w : Snapshot} (hv : v.keys.Nodup)
    (hlisted : ∀ id row, v.worker id = some row → Key.worker id ∈ v.keys)
    (h : Marks now (staleWorkers offlineAfterSeconds now v) (reclaimedView rng rank now v) w) :
    Sweeps offlineAfterSeconds rank rng now v w where
  keys := by rw [h.keys, reclaimedView, Txn.View.putAll_keys]
  reclaimed p hp := (h.other (.job p.1) (by simp)).trans (reclaimedView_mem hv hp)
  marked id row hrow := by
    by_cases hwhere : staleWhere offlineAfterSeconds now row = true
    · have hid : id ∈ staleWorkers offlineAfterSeconds now v := by
        refine List.mem_filter.mpr ⟨List.mem_filterMap.mpr ⟨_, hlisted id row hrow, rfl⟩, ?_⟩
        rw [hrow]
        exact hwhere
      rw [h.marked id hid, reclaimedView_worker, hrow, if_pos hwhere]
      rfl
    · have hid : id ∉ staleWorkers offlineAfterSeconds now v := by
        rw [staleWorkers, List.mem_filter]
        rintro ⟨-, hany⟩
        rw [hrow] at hany
        exact hwhere hany
      rw [if_neg hwhere, ← hrow]
      have hsame := h.other (.worker id) fun i hi heq => hid (Key.worker.inj heq ▸ hi)
      exact hsame.trans (reclaimedView_worker id)
  other k hk hk' := (h.other k fun i _ => hk' i).trans (reclaimedView_other hk)

-- reap_once with nobody else at work.
theorem runs_reapOnce (hv : Keyable v)
    (hlock : v.row (.advisory REAPER_ADVISORY_LOCK_KEY) = some ())
    (hclaimed : ∀ id e, v.job id = some e → e.job.status = .running → 1 ≤ e.job.attemptCount) :
    Runs t (Settled v now) (reapOnce offlineAfterSeconds rank rng) fun r m =>
      r = .ok ((expiredRows rank now v).take expiredLimit).length ∧
        ∃ v', Sweeps offlineAfterSeconds rank rng now v v' ∧ Settled v' now m := by
  refine .assuming (φ := ∀ id row, v.worker id = some row → Key.worker id ∈ v.keys)
    (fun m h id row hrow => (h.sees t).mem_keys hrow) fun hlisted => ?_
  refine .bind .begin_settled fun now' => .given fun hnow => ?_
  subst hnow
  refine .bind (runs_lockReaper hlock) fun r => .given fun hr => ?_
  subst hr
  refine .bind (.select _) fun ids => .given fun hids => ?_
  rw [scanJobs_expired] at hids
  subst hids
  refine .bind runs_lockExpired fun expired => .given fun hes => ?_
  subst hes
  refine .bind (runs_reapSwept hv hclaimed) fun r => .given fun hr => ?_
  subst hr
  refine .bind (.select _) fun stale => .given fun hstale => ?_
  obtain rfl : stale = staleWorkers offlineAfterSeconds now' (reclaimedView rng rank now' v) := hstale
  have hkeys : (reclaimedView rng rank now' v).keys.Nodup := by
    rw [reclaimedView, Txn.View.putAll_keys]
    exact hv.nodup
  refine .bind (runs_markStale hkeys) fun _ => .exists fun w' => .given fun hmarks => ?_
  rw [reclaimedView_stale] at hmarks
  refine .bind .commit fun _ => .bind .rollback fun _ => .pure fun m h => ?_
  exact ⟨by rw [List.length_map]; rfl, w', sweeps_of_marks hv.nodup hlisted hmarks, h⟩

end ReapAlone

end Sweep

end Chronos
