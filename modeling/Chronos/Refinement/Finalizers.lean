import Chronos.Refinement.Statements

namespace Chronos

open Txn (TxId Stable Triple)

namespace JobEntry

-- A history names each transaction once.
theorem event_unique {log : List JobEvent} (hnodup : (log.filterMap JobEvent.tx).Nodup)
    {ev ev' : JobEvent} {tx : TxId} (h : ev ∈ log) (h' : ev' ∈ log) (htx : ev.tx = some tx)
    (htx' : ev'.tx = some tx) : ev = ev' := by
  have hmem : ∀ {rest : List JobEvent} {ev : JobEvent}, ev ∈ rest → ev.tx = some tx →
      tx ∈ rest.filterMap JobEvent.tx :=
    fun h htx => List.mem_filterMap.mpr ⟨_, h, htx⟩
  induction log with
  | nil => cases h
  | cons new log ih =>
      rw [List.filterMap_cons] at hnodup
      rcases List.mem_cons.mp h with rfl | hold
      · rcases List.mem_cons.mp h' with rfl | hold'
        · rfl
        · rw [htx] at hnodup
          exact absurd (hmem hold' htx') (List.nodup_cons.mp hnodup).1
      · rcases List.mem_cons.mp h' with rfl | hold'
        · rw [htx'] at hnodup
          exact absurd (hmem hold htx) (List.nodup_cons.mp hnodup).1
        · refine ih ?_ hold hold'
          cases hnew : new.tx with
          | none => simpa [hnew] using hnodup
          | some s =>
              rw [hnew] at hnodup
              exact (List.nodup_cons.mp hnodup).2

theorem claimed_same {e : JobEntry} (hnodup : (e.log.filterMap JobEvent.tx).Nodup) {tx : TxId}
    {workerId holder : WorkerId} {pass pass' : Pass} (h : .claimed tx workerId pass ∈ e.log)
    (h' : .claimed tx holder pass' ∈ e.log) : workerId = holder :=
  (JobEvent.claimed.inj (event_unique hnodup h h' rfl rfl)).2.1

-- As long as a claim is in force, the lease is its worker's.
theorem HandedOut.guard_of_current {e : JobEntry} (hok : e.Ok)
    (hnodup : (e.log.filterMap JobEvent.tx).Nodup) {claim : TxId} {workerId : WorkerId} {job : Job}
    (h : e.HandedOut claim workerId job) (hcur : e.currentClaim = some claim) :
    leaseGuard workerId e.job = true := by
  have hrunning := hok.running_iff.mpr (by rw [hcur]; rfl)
  obtain ⟨pass, hmem⟩ := h.claimed
  have hhead : ∃ holder pass', e.log.head? = some (.claimed claim holder pass') := by
    unfold currentClaim at hcur
    split at hcur
    · rename_i tx holder pass' rest hlog
      rw [Option.some.injEq] at hcur
      exact ⟨holder, pass', by rw [hlog, hcur]; rfl⟩
    · cases hcur
  obtain ⟨holder, pass', hhead⟩ := hhead
  have heq := claimed_same hnodup hmem (List.mem_of_head? hhead)
  exact JobOp.leaseGuard_iff.mpr ⟨hrunning, heq ▸ hok.coherent.holder claim holder pass' hhead⟩

end JobEntry

variable {cond : Conditions} {c : Call} {t : TxId}

-- The row a finalizer is called for, once its claim is over.
def Ended (claim : TxId) (workerId : WorkerId) (id : JobId) (R : JobEntry → Prop) (m : Db) :
    Prop :=
  ∃ e, committedJob m id = some e ∧
    (∃ pass, .claimed claim workerId pass ∈ e.log ∧ e.currentClaim ≠ some claim) ∧ R e

theorem stable_ended {claim : TxId} {workerId : WorkerId} {id : JobId} {R : JobEntry → Prop}
    (hR : Lasting cond t R) : Stable (spec cond) t (Ended claim workerId id R) :=
  Stable.entry ((lasting_exists fun pass => lasting_ended claim workerId pass).and hR) id

-- The row a finalizer has ended its claim in.
def Finished (t claim : TxId) (workerId : WorkerId) (how : Finish) (e : JobEntry) : Prop :=
  (∃ pass, .claimed claim workerId pass ∈ e.log ∧ e.currentClaim ≠ some claim) ∧
    .finished claim t how ∈ e.log

theorem lasting_finished {claim : TxId} {workerId : WorkerId} {how : Finish} :
    Lasting cond t (Finished t claim workerId how) :=
  (lasting_exists fun pass => lasting_ended claim workerId pass).and (lasting_mem_log _)

section Finalize

variable {claim : TxId} {job : Job} {workerId : WorkerId} {f : Finalizer}

def Handed (claim : TxId) (workerId : WorkerId) (job : Job) (m : Db) : Prop :=
  ∃ e, committedJob m job.id = some e ∧ e.HandedOut claim workerId job

theorem stable_handed : Stable (spec cond) t (Handed claim workerId job) :=
  Stable.entry (lasting_handedOut claim workerId job) job.id

-- What is known of a row when the guarded UPDATE has matched it.
structure Matched (cond : Conditions) (t claim : TxId) (workerId : WorkerId) (job : Job)
    (f : Finalizer) (e : JobEntry) : Prop where
  guard : leaseGuard workerId e.job = true
  handed : e.HandedOut claim workerId job
  finalize : cond.finalize f claim job e
  fresh : e.Unrecorded t

theorem sameRow_update (o : Outcome) (now : Time) (e : JobEntry) (ev : JobEvent) :
    e.SameRow (e.amend (o.update workerId now).set ev) := by
  cases o with
  | failure error decision =>
      obtain ⟨retry, delay⟩ := decision
      cases retry <;> exact ⟨rfl, rfl, rfl, rfl, rfl⟩
  | _ => exact ⟨rfl, rfl, rfl, rfl, rfl⟩

theorem sameRow_finishAttempt (n : Int) (status : AttemptStatus) (error : Option String)
    (now : Time) (e : JobEntry) : e.SameRow (e.finishAttempt n status error now) :=
  ⟨rfl, rfl, rfl, rfl, rfl⟩

-- The row while the finalizer has it locked: the job updated, then the attempt closed.
def Updated (cond : Conditions) (t claim : TxId) (workerId : WorkerId) (job : Job) (f : Finalizer)
    (o : Outcome) (now : Time) (e e' : JobEntry) : Prop :=
  Matched cond t claim workerId job f e ∧
    e' = e.amend (o.update workerId now).set (.finished claim t o.how)

def Closed (cond : Conditions) (t claim : TxId) (workerId : WorkerId) (job : Job) (f : Finalizer)
    (o : Outcome) (now : Time) (e e' : JobEntry) : Prop :=
  Matched cond t claim workerId job f e ∧ e' = JobOp.finished claim t job workerId o now e

-- What a finalizer leaves when it is done: `false` says that it has changed nothing, `true` that
-- it has ended its claim.
def Finalized (t claim : TxId) (workerId : WorkerId) (job : Job) (how : Finish) (done : Bool)
    (m : Db) : Prop :=
  (done = false → Unrecorded t m) ∧
    Ended claim workerId job.id (fun e => done = true → .finished claim t how ∈ e.log) m

theorem stable_finalized (how : Finish) (done : Bool) :
    Stable (spec cond) t (Finalized t claim workerId job how done) :=
  (Stable.imp stable_unrecorded).and (stable_ended (Lasting.imp (lasting_mem_log _)))

theorem triple_finalize (o : Outcome) (now : Time)
    (hperf : Performs t (.finalize claim job workerId f) (.finish claim t job workerId o now)) :
    Triple (spec cond) (.finalize claim job workerId f) t
      (fun m => Unlocked t m ∧ Unrecorded t m ∧ Handed claim workerId job m)
      (ExecutionService.finalize t claim job (o.update workerId now) o.how o.status o.error now)
      fun done m => Unlocked t m ∧ Finalized t claim workerId job o.how done m := by
  unfold ExecutionService.finalize
  have hsound := spec_sound cond
  refine .bind hsound (triple_updateOne
    (N := fun m => Unrecorded t m ∧ Ended claim workerId job.id (fun _ => True) m)
    (D := Updated cond t claim workerId job f o now) (stable_unrecorded.and stable_handed)
    (stable_unrecorded.and (stable_ended lasting_true)) ?_ ?_
    (fun e _ => sameRow_update o now e _)
    fun e _ h => absurd h (o.update_status_ne_running workerId now e.job)) ?_
  · -- The UPDATE matches no row: the claim is over.
    rintro m hat ⟨hunrec, e, he, hhanded⟩ hguard
    refine ⟨hunrec, e, he, ?_, trivial⟩
    obtain ⟨pass, hmem⟩ := hhanded.claimed
    refine ⟨pass, hmem, fun hcur => ?_⟩
    have hg := hhanded.guard_of_current (hat.inv.ok job.id e he) (hat.inv.txs job.id e he) hcur
    have hno := hguard e he
    rw [Outcome.update_guard, hg] at hno
    cases hno
  · rintro m e hat ⟨hunrec, d, hd, hhanded⟩ he hguard hperm
    obtain rfl : d = e := Option.some.inj (hd.symm.trans he)
    rw [Outcome.update_guard] at hguard
    refine ⟨⟨hguard, hhanded, ?_, hunrec job.id d he⟩, rfl⟩
    refine hperm.finalize claim job workerId f rfl ?_ d he hguard
    rw [Outcome.update_guard]
    exact .mk _
  · intro r
    cases r with
    | none =>
        have hmiss : Stable (spec cond) t fun m => Unlocked t m ∧ Unrecorded t m ∧
            Ended claim workerId job.id (fun _ => True) m :=
          stable_unlocked.and (stable_unrecorded.and (stable_ended lasting_true))
        have hdone : Stable (spec cond) t (Finalized t claim workerId job o.how false) :=
          stable_finalized o.how false
        refine .bind hsound (triple_rollback hmiss (stable_unlocked.and hdone) ?_) fun _ => ?_
        · rintro m hat ⟨hfree, hunrec, e, he, hended, -⟩
          rw [Txn.Store.rollback_eq_self hfree]
          exact ⟨hfree, fun _ => hunrec, e, he, hended, fun h => absurd h Bool.false_ne_true⟩
        · exact (triple_exit hdone).post fun _ _ h => h.1 ▸ h.2
    | some _ =>
        refine .bind hsound (triple_writeOne (E := Closed cond t claim workerId job f o now) ?_
          (sameRow_finishAttempt _ _ _ _) fun _ h => h) fun _ => ?_
        · rintro e e' ⟨hmatched, rfl⟩
          exact ⟨hmatched, rfl⟩
        · refine .bind hsound (triple_commitOne (R := Finished t claim workerId o.how)
            lasting_finished ?_ ?_) fun _ => ?_
          · rintro m e e' hat he ⟨hmatched, rfl⟩
            obtain ⟨hrunning, hlocked⟩ := JobOp.leaseGuard_iff.mp hmatched.guard
            exact ⟨_, hperf, .finish claim t job workerId o now e hrunning hlocked,
              hmatched.fresh, hmatched.handed, fun g hg => (Call.finalize.inj hg).2.2.2 ▸ hmatched.finalize⟩
          · rintro e e' ⟨hmatched, rfl⟩
            obtain ⟨pass, hmem⟩ := hmatched.handed.claimed
            refine ⟨⟨pass, List.mem_cons_of_mem _ hmem, ?_⟩, List.mem_cons_self⟩
            simp [JobEntry.currentClaim, JobOp.finished, JobEntry.amend, JobEntry.finishAttempt]
          · refine ((triple_exit (stable_finalized o.how true)).post
              fun _ _ h => h.1 ▸ h.2).pre ?_
            rintro m - - - - ⟨hfree, e, he, hended, hmem⟩
            exact ⟨hfree, fun h => absurd h.symm Bool.false_ne_true, e, he, hended, fun _ => hmem⟩

theorem triple_storeSummary {error : String} {rng : Draw} {text : String} :
    Triple (spec cond) (.finalize claim job workerId (.completeFailure error rng (some text))) t
      (fun m => Unlocked t m ∧ Finalized t claim workerId job .dead true m)
      (ExecutionService.storeSummary job.id text)
      fun _ m => Unlocked t m ∧ Finalized t claim workerId job .dead true m := by
  unfold ExecutionService.storeSummary
  have hsound := spec_sound cond
  have hst : Stable (spec cond) t (Finalized t claim workerId job .dead true) :=
    stable_finalized .dead true
  refine .bind hsound (triple_begin (stable_unlocked.and hst)) fun now => ?_
  refine .bind hsound (triple_updateOne (N := Finalized t claim workerId job .dead true)
    (D := fun e e' => (Finished t claim workerId .dead e ∧ job.id = e.job.id ∧
      cond.summary t claim e) ∧ e' = e.assign (JobRepository.setAiSummary text).set) hst hst
    (fun m hat h _ => h) ?_ (fun e _ => ⟨rfl, rfl, rfl, rfl, rfl⟩) fun e _ h => h) ?_
  · intro m e hat ⟨_, d, hd, hended, hmem⟩ he _ hperm
    obtain rfl : d = e := Option.some.inj (hd.symm.trans he)
    exact ⟨⟨⟨hended, hmem rfl⟩, (hat.inv.id job.id d he).symm,
      hperm.summary claim job workerId error rng text rfl .mk d he⟩, rfl⟩
  · intro r
    have hexit : Triple (spec cond)
        (.finalize claim job workerId (.completeFailure error rng (some text))) t
        (fun m => Unlocked t m ∧ Finalized t claim workerId job .dead true m)
        ExecutionService.exit
        fun _ m => Unlocked t m ∧ Finalized t claim workerId job .dead true m := by
      refine triple_rollback (stable_unlocked.and hst) (stable_unlocked.and hst) ?_
      intro m hat h
      rw [Txn.Store.rollback_eq_self h.1]
      exact h
    cases r with
    | none =>
        refine .bind hsound (triple_commit (stable_unlocked.and hst) (stable_unlocked.and hst)
          (fun m hat h id e' hp => absurd hp (h.1.noJobs id e')) ?_) fun _ => hexit
        intro m hat h
        rw [Txn.Store.commit_eq_self h.1]
        exact h
    | some _ =>
        refine .bind hsound (triple_commitOne (R := Finished t claim workerId .dead)
          lasting_finished ?_ ?_) fun _ => hexit.pre ?_
        · rintro m e e' hat he ⟨⟨⟨_, hmem⟩, hid, hsummary⟩, rfl⟩
          exact ⟨_, .summarize claim job workerId error rng text, .summarize text e, claim, job,
            workerId, _, rfl, hid, hmem, hsummary⟩
        · rintro e e' ⟨⟨hended, _⟩, rfl⟩
          exact hended
        · rintro m - - - - ⟨hfree, e, he, hended, hmem⟩
          exact ⟨hfree, nofun, e, he, hended, fun _ => hmem⟩

-- What a finalizer is started with.
def Entered (t claim : TxId) (workerId : WorkerId) (job : Job) (m : Db) : Prop :=
  Unlocked t m ∧ Unrecorded t m ∧ Handed claim workerId job m

theorem stable_entered : Stable (spec cond) t (Entered t claim workerId job) :=
  stable_unlocked.and (stable_unrecorded.and stable_handed)

theorem Finalized.post {how : Finish} {done : Bool} {m : Db}
    (h : Finalized t claim workerId job how done m) :
    post cond (.finalize claim job workerId f) t (.bool done) m := by
  obtain ⟨hfalse, e, he, ⟨pass, hmem, hcur⟩, htrue⟩ := h
  exact ⟨⟨e, he, ⟨pass, hmem⟩, hcur, fun hd => ⟨how, htrue hd⟩⟩, hfalse⟩

theorem triple_completeSuccess (result : Option Json) :
    Triple (spec cond) (.finalize claim job workerId (.completeSuccess result)) t
      (Entered t claim workerId job)
      (ExecutionService.completeSuccess t claim job workerId result)
      fun done m => Unlocked t m ∧ Finalized t claim workerId job .success done m :=
  .bind (spec_sound cond) (triple_begin stable_entered) fun now =>
    triple_finalize (.success result) now (.success claim job workerId result now)

theorem triple_releaseJob :
    Triple (spec cond) (.finalize claim job workerId .releaseJob) t
      (Entered t claim workerId job) (ExecutionService.releaseJob t claim job workerId)
      fun done m => Unlocked t m ∧ Finalized t claim workerId job .release done m :=
  .bind (spec_sound cond) (triple_begin stable_entered) fun now =>
    triple_finalize .release now (.release claim job workerId now)

-- The same of a complete_failure, which does not raise.
def FailureRecorded (t claim : TxId) (workerId : WorkerId) (job : Job) (r : Except PyError Bool)
    (m : Db) : Prop :=
  ∃ done how, r = .ok done ∧ Finalized t claim workerId job how done m

theorem stable_failureRecorded (r : Except PyError Bool) :
    Stable (spec cond) t (FailureRecorded t claim workerId job r) :=
  Stable.exists fun done => Stable.exists fun how =>
    (Stable.const _).and (stable_finalized how done)

theorem triple_completeFailure (error : String) (rng : Draw) (summary : Option String) :
    Triple (spec cond) (.finalize claim job workerId (.completeFailure error rng summary)) t
      (Entered t claim workerId job)
      (ExecutionService.completeFailure t claim job workerId error rng summary)
      (FailureRecorded t claim workerId job) := by
  have hsound := spec_sound cond
  refine Triple.assuming (φ := 1 ≤ job.attemptCount) (fun m ⟨_, _, _, _, h⟩ => h.attempts)
    fun hcount => ?_
  unfold ExecutionService.completeFailure
  obtain ⟨decision, hd⟩ := decideFailure_ok (policyOf job) rng hcount
  rw [hd]
  refine .bind hsound (triple_begin stable_entered) fun now => ?_
  refine .bind hsound (triple_finalize (.failure error decision) now
    (.failure claim job workerId error rng summary decision now hd)) fun done => ?_
  have hst : ∀ how, Stable (spec cond) t fun m => Unlocked t m ∧
      Finalized t claim workerId job how done m :=
    fun how => stable_unlocked.and (stable_finalized how done)
  have hreturn : ∀ (P : Db → Prop) how, Stable (spec cond) t P →
      (∀ m, P m → Finalized t claim workerId job how done m) →
      Triple (spec cond) (.finalize claim job workerId (.completeFailure error rng summary)) t P
        (pure (.ok done)) (FailureRecorded t claim workerId job) :=
    fun P how hP himp => .pure hP fun m h => ⟨done, how, rfl, himp m h⟩
  split
  · rename_i hcond
    rw [Bool.and_eq_true, Bool.not_eq_true'] at hcond
    obtain ⟨rfl, hdead⟩ := hcond
    cases summary with
    | none => exact hreturn _ _ (hst _) fun m h => h.2
    | some text =>
        dsimp only
        split
        · exact hreturn _ _ (hst _) fun m h => h.2
        · have hhow : (Outcome.failure error decision).how = .dead := by
            simp [Outcome.how, hdead]
          rw [hhow]
          exact .bind hsound triple_storeSummary fun _ => hreturn _ _ (hst _) fun m h => h.2
  · exact hreturn _ _ (hst _) fun m h => h.2

theorem triple_finalizer (f : Finalizer) :
    Triple (spec cond) (.finalize claim job workerId f) t (Entered t claim workerId job)
      (f.body t claim job workerId) (post cond (.finalize claim job workerId f) t) := by
  have hsound := spec_sound cond
  cases f with
  | completeSuccess result =>
      exact .bind hsound (triple_completeSuccess result) fun done =>
        .pure (stable_unlocked.and (stable_finalized .success done)) fun m h => h.2.post
  | releaseJob =>
      exact .bind hsound triple_releaseJob fun done =>
        .pure (stable_unlocked.and (stable_finalized .release done)) fun m h => h.2.post
  | completeFailure error rng summary =>
      refine .bind hsound (triple_completeFailure error rng summary) fun r => ?_
      refine .pure (stable_failureRecorded r) fun m h => ?_
      obtain ⟨done, how, rfl, hfin⟩ := h
      exact hfin.post

end Finalize

end Chronos
