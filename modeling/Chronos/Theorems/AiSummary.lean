import Chronos.Txn.Rows
import Chronos.Refinement.Checks

namespace Chronos

open Txn (TxId Reaches)

variable {describes : String → String → Bool} {m : Db} {s s' : State} {ev : Event}

-- generate_summary returns one of the texts that describe the error it is given.
def generated (describes : String → String → Bool) : Event → Bool
  | .start _ (.finalize _ _ _ (.completeFailure error _ (some text))) => describes error text
  | _ => true

-- The commit by which call `t` sent the job to the DLQ.
def ownFinish (t : TxId) : JobEvent → Bool
  | .finished _ u .dead => u = t
  | _ => false

-- Nothing has happened to the job since call `t` sent it to the DLQ, if it did.
def unmovedSince (t : TxId) (e : JobEntry) : Bool :=
  !e.log.any (ownFinish t) || e.log.head?.any (ownFinish t)

-- A job that `p` sends to the DLQ brings no summary along, or one that describes its new error.
def bringsNoSummary (describes : String → String → Bool) (e p : JobEntry) : Bool :=
  p.job.status ≠ .dead || e.job.status = .dead ||
    e.job.aiSummary.all fun text => p.job.lastError.any fun error => describes error text

-- At each COMMIT: the summary is stored on a job that nothing has happened to since its failure,
-- and no job goes to the DLQ with an old summary.
def keepsSummaries (describes : String → String → Bool) (s : State) : Event → Bool
  | .run t =>
      match s.thread t with
      | some ⟨_, some (.op .commit _)⟩ => (s.mem.keys.filterMap Key.jobId).all fun id =>
          (committedJob s.mem id).all fun e => (pendingJob s.mem id).all fun p =>
            p.1 ≠ t || (unmovedSince t e && bringsNoSummary describes e p.2)
      | _ => true
  | _ => true

-- Call `t` is about to commit the summary of `error` on the job.
structure StoresSummary (s : State) (t : TxId) (id : JobId) (error text : String) : Prop where
  thread : ∃ claim job workerId rng next, job.id = id ∧ s.thread t =
    some ⟨.finalize claim job workerId (.completeFailure error rng (some text)),
      some (.op .commit next)⟩
  row : ∃ e p, committedJob s.mem id = some e ∧ pendingJob s.mem id = some (t, p) ∧
    e.log.any (ownFinish t) = true

def DeadWith (error : String) (e : JobEntry) : Prop :=
  e.job.status = .dead ∧ e.job.lastError = some error

def SummariesFit (describes : String → String → Bool) (m : Db) : Prop :=
  ∀ id e text, committedJob m id = some e → e.job.status = .dead → e.job.aiSummary = some text →
    ∃ error, e.job.lastError = some error ∧ describes error text = true

-- A step stores a summary on a DEAD job with the error it was made from, and no other step
-- changes a summary.
structure SummaryStep (s s' : State) (ev : Event) : Prop where
  stored : ∀ t id error text, ev = .run t → StoresSummary s t id error text →
    ∃ e, committedJob s.mem id = some e ∧ DeadWith error e
  changed : ∀ id e e', committedJob s.mem id = some e → committedJob s'.mem id = some e' →
    e'.job.aiSummary ≠ e.job.aiSummary → ∃ t error text, ev = .run t ∧
      StoresSummary s t id error text ∧ e'.job.aiSummary = some text

-- `last` is about the jobs whose newest event is a failure for good.
structure SummaryInv (describes : String → String → Bool) (s : State) : Prop where
  fits : SummariesFit describes s.mem
  last : ∀ id e claim t, committedJob s.mem id = some e →
    e.log.head? = some (.finished claim t .dead) → ∃ error, e.job.lastError = some error ∧
      ∃ job workerId rng summary, s.calls t
        (.finalize claim job workerId (.completeFailure error rng summary))
  calls : ∀ t claim job workerId error rng text, s.calls t
    (.finalize claim job workerId (.completeFailure error rng (some text))) →
      describes error text = true

theorem ownFinish_iff {t : TxId} {ev : JobEvent} :
    ownFinish t ev = true ↔ ∃ claim, ev = .finished claim t .dead := by
  cases ev with
  | finished claim u how => cases how <;> simp [ownFinish, eq_comm]
  | _ => simp [ownFinish]

theorem dead_of_head {e : JobEntry} {claim t : TxId} (hok : e.Ok)
    (h : e.log.head? = some (.finished claim t .dead)) : e.job.status = .dead := by
  have hstatus := hok.coherent.status
  rw [h, Option.map_some, Option.some.injEq] at hstatus
  exact hstatus.symm

-- Of an operation: only `summarize` touches the summary, and what it leaves of the error.
theorem aiSummary_of_applies {op : JobOp} {e e' : JobEntry} (h : op.Applies e e') :
    (∃ text, op = .summarize text ∧ e' = e.assign (JobRepository.setAiSummary text).set) ∨
      e'.job.aiSummary = e.job.aiSummary := by
  cases h with
  | summarize text e => exact .inl ⟨text, rfl, rfl⟩
  | finish claim tx snapshot workerId o now e hrunning hlocked =>
      right
      cases o with
      | success result => rfl
      | failure error decision =>
          cases hretry : decision.retry <;>
            simp [JobOp.finished, JobEntry.finishAttempt, JobEntry.amend, Outcome.update,
              JobRepository.finishFailure, hretry]
      | release => rfl
  | reclaim rng now decision e hrunning hdecision =>
      right
      cases hretry : decision.retry <;>
        simp [JobOp.reclaimed, JobEntry.finishAttempt, JobEntry.amend, reclaimValues, hretry]
  | _ => exact .inr rfl

-- Only a requeue and a summary change a DEAD job.
theorem lastError_of_dead {op : JobOp} {e e' : JobEntry} (h : op.Applies e e')
    (hdead : e.job.status = .dead) : e'.job.lastError = e.job.lastError := by
  cases h with
  | requeue => rfl
  | summarize => rfl
  | _ => simp_all

-- What the condition says of a row that a commit publishes.
theorem keepsSummaries_at {t : TxId} {c : Call} {next : Unit → Tx Value} {id : JobId}
    {e p : JobEntry} (hwf : s.mem.WF) (hkeeps : keepsSummaries describes s (.run t) = true)
    (ht : s.thread t = some ⟨c, some (.op .commit next)⟩) (he : committedJob s.mem id = some e)
    (hp : pendingJob s.mem id = some (t, p)) :
    unmovedSince t e = true ∧ bringsNoSummary describes e p = true := by
  simp only [keepsSummaries, ht] at hkeeps
  have hkey : Key.job id ∈ s.mem.keys := hwf.mem_of_committed he
  have hall := List.all_eq_true.mp hkeeps id (mem_jobIds.mpr hkey)
  simpa [he, hp] using hall

-- The summary that is stored describes the error the job is DEAD with.
theorem SummaryInv.stores (hinv : SummaryInv describes s) (hwf : s.mem.WF)
    (hok : ∀ id e, committedJob s.mem id = some e → e.Ok) {t : TxId} {id : JobId}
    {error text : String} (hkeeps : keepsSummaries describes s (.run t) = true)
    (h : StoresSummary s t id error text) :
    ∃ e, committedJob s.mem id = some e ∧ DeadWith error e ∧ describes error text = true := by
  obtain ⟨claim, job, workerId, rng, next, -, ht⟩ := h.thread
  obtain ⟨e, p, he, hp, hfinished⟩ := h.row
  have hunmoved := (keepsSummaries_at hwf hkeeps ht he hp).1
  have hhead : e.log.head?.any (ownFinish t) = true := by simpa [unmovedSince, hfinished] using hunmoved
  obtain ⟨ev, hev, hown⟩ := (Option.any_eq_true _ _).mp hhead
  obtain ⟨claim', rfl⟩ := ownFinish_iff.mp hown
  obtain ⟨error', herror, job', workerId', rng', summary', hcalls⟩ := hinv.last id e claim' t he hev
  have hsame := Txn.Pool.calls_unique ht hcalls
  simp only [Call.finalize.injEq, Finalizer.completeFailure.injEq] at hsame
  obtain ⟨-, -, -, rfl, -⟩ := hsame
  exact ⟨e, he, ⟨dead_of_head (hok id e he) hev, herror⟩,
    hinv.calls t claim job workerId error' rng text ⟨_, ht⟩⟩

-- The commit of a summary, seen from the row it changes.
theorem storesSummary_of_effect {t : TxId} {c : Call} {rest : Tx Value} {id : JobId}
    {e e' : JobEntry} {text : String} (ht : s.thread t = some ⟨c, some rest⟩)
    (heff : Effect .none c t s.mem (.summarize text) e e') (he : committedJob s.mem id = some e)
    (hid : e.job.id = id) {next : Unit → Tx Value} (hrest : rest = .op .commit next)
    (hp : pendingJob s.mem id = some (t, e')) : ∃ error, StoresSummary s t id error text := by
  subst hrest
  obtain ⟨claim, job, workerId, f, hc, hjob, hfinished, -⟩ := heff.side
  cases heff.performs with
  | summarize claim' job' workerId' error rng text =>
      simp only [Call.finalize.injEq] at hc
      obtain ⟨rfl, rfl, rfl, rfl⟩ := hc
      exact ⟨error, ⟨claim', job', workerId', rng, next, hjob.trans hid, ht⟩, e, e', he, hp,
        List.any_eq_true.mpr ⟨_, hfinished, ownFinish_iff.mpr ⟨claim', rfl⟩⟩⟩

section Step

variable (hm : Initial m) (hrun : Run .none m s) (hstep : system.step s ev = some s')

include hm hrun hstep

-- A row that a step changes is published by the commit of the call that changes it.
theorem changed_by_commit {id : JobId} {e e' : JobEntry} (he : committedJob s.mem id = some e)
    (he' : committedJob s'.mem id = some e') (hne : e' ≠ e) :
    ∃ t c op next, ev = .run t ∧ s.thread t = some ⟨c, some (.op .commit next)⟩ ∧
      pendingJob s.mem id = some (t, e') ∧ Effect .none c t s.mem op e e' := by
  have hchange : (s'.mem.cell (.job id)).committed ≠ (s.mem.cell (.job id)).committed := by
    intro heq
    exact hne (Option.some.inj ((he'.symm.trans heq).trans he))
  obtain ⟨t, c, next, v, rfl, ht, -, hp, hv⟩ := Txn.System.publication hstep hchange
  obtain rfl : v = e' := Option.some.inj (hv.symm.trans he')
  cases Run.published hm hrun hstep (permitted_none s _ s') id with
  | same heq => exact absurd heq hchange
  | changed t' c' p op d d' hev ht' hd hd' heff =>
      cases hev
      rw [ht, Option.some.injEq, Txn.Thread.mk.injEq] at ht'
      obtain ⟨rfl, -⟩ := ht'
      obtain rfl : d = e := Option.some.inj (hd.symm.trans he)
      obtain rfl : d' = v := Option.some.inj (hd'.symm.trans he')
      exact ⟨t, c, op, next, rfl, ht, hp, heff⟩
  | created t' c' p d hev ht' hnone hd hnew =>
      rw [he] at hnone
      cases hnone

theorem summaryStep (hinv : SummaryInv describes s)
    (hkeeps : keepsSummaries describes s ev = true) : SummaryStep s s' ev where
  stored t id error text hev h := by
    subst hev
    have hdb := Run.inv hm hrun
    obtain ⟨e, he, hdead, -⟩ := hinv.stores hdb.wf hdb.inv.ok hkeeps h
    exact ⟨e, he, hdead⟩
  changed id e e' he he' hne := by
    have hdiffer : e' ≠ e := fun heq => hne (by rw [heq])
    obtain ⟨t, c, op, next, hev, ht, hp, heff⟩ := changed_by_commit hm hrun hstep he he' hdiffer
    rcases aiSummary_of_applies heff.applies with ⟨text, rfl, hset⟩ | heq
    · have hid := (Run.inv hm hrun).inv.id id e he
      obtain ⟨error, hstores⟩ := storesSummary_of_effect ht heff he hid rfl hp
      exact ⟨t, error, text, hev, hstores, by rw [hset]; rfl⟩
    · exact absurd heq hne

-- A committed row is what it was, has been changed by a commit, or is new.
theorem row_of_step {id : JobId} {e' : JobEntry} (he' : committedJob s'.mem id = some e') :
    committedJob s.mem id = some e' ∨
    (∃ e t c op next, committedJob s.mem id = some e ∧ ev = .run t ∧
      s.thread t = some ⟨c, some (.op .commit next)⟩ ∧ pendingJob s.mem id = some (t, e') ∧
      Effect .none c t s.mem op e e') ∨
    e'.job.status = .pending ∧ ∃ t, e'.log = [.created t] := by
  cases he : committedJob s.mem id with
  | some e =>
      by_cases heq : e' = e
      · exact .inl (heq ▸ rfl)
      · obtain ⟨t, c, op, next, hev, ht, hp, heff⟩ := changed_by_commit hm hrun hstep he he' heq
        exact .inr (.inl ⟨e, t, c, op, next, rfl, hev, ht, hp, heff⟩)
  | none =>
      cases Run.published hm hrun hstep (permitted_none s ev s') id with
      | same heq =>
          rw [he', he] at heq
          cases heq
      | changed t c p op d d' hev ht hd hd' heff =>
          rw [he] at hd
          cases hd
      | created t c p d hev ht hnone hd hnew =>
          obtain rfl : d = e' := Option.some.inj (hd.symm.trans he')
          exact .inr (.inr ⟨hnew.pending, t, hnew.log⟩)

theorem calls_of_step {t : TxId} {c : Call} (h : s.calls t c) : s'.calls t c := by
  obtain ⟨rest, ht⟩ := h
  exact (Txn.System.steps_of_step hstep).call (Run.inv hm hrun).threads ht

theorem summaries_fit_of_step (hinv : SummaryInv describes s)
    (hkeeps : keepsSummaries describes s ev = true) : SummariesFit describes s'.mem := by
  have hdb := Run.inv hm hrun
  intro id e' text he' hdead htext
  rcases row_of_step hm hrun hstep he' with he | ⟨e, t, c, op, next, he, rfl, ht, hp, heff⟩ | hnew
  · exact hinv.fits id e' text he hdead htext
  · rcases aiSummary_of_applies heff.applies with ⟨text', rfl, hset⟩ | hsame
    · obtain ⟨error, hstores⟩ :=
        storesSummary_of_effect ht heff he (hdb.inv.id id e he) rfl hp
      obtain ⟨d, hd, ⟨-, herror⟩, hdescribes⟩ := hinv.stores hdb.wf hdb.inv.ok hkeeps hstores
      obtain rfl : e = d := Option.some.inj (he.symm.trans hd)
      subst hset
      obtain rfl : text' = text := Option.some.inj htext
      exact ⟨error, herror, hdescribes⟩
    · have hbrings := (keepsSummaries_at hdb.wf hkeeps ht he hp).2
      by_cases hwas : e.job.status = .dead
      · rw [lastError_of_dead heff.applies hwas]
        exact hinv.fits id e text he hwas (hsame ▸ htext)
      · have hany : e'.job.lastError.any (fun error => describes error text) = true := by
          simpa [bringsNoSummary, hdead, hwas, ← hsame, htext] using hbrings
        obtain ⟨error, herror, hdescribes⟩ := (Option.any_eq_true _ _).mp hany
        exact ⟨error, herror, hdescribes⟩
  · rw [hnew.1] at hdead
    cases hdead

theorem last_of_step (hinv : SummaryInv describes s) {id : JobId} {e' : JobEntry} {claim t : TxId}
    (he' : committedJob s'.mem id = some e')
    (hhead : e'.log.head? = some (.finished claim t .dead)) :
    ∃ error, e'.job.lastError = some error ∧ ∃ job workerId rng summary,
      s'.calls t (.finalize claim job workerId (.completeFailure error rng summary)) := by
  have hkept : ∀ e, committedJob s.mem id = some e → e'.log = e.log →
      e'.job.lastError = e.job.lastError → ∃ error, e'.job.lastError = some error ∧
        ∃ job workerId rng summary,
          s'.calls t (.finalize claim job workerId (.completeFailure error rng summary)) := by
    intro e he hlog hlast
    obtain ⟨error, herror, job, workerId, rng, summary, hcalls⟩ :=
      hinv.last id e claim t he (hlog ▸ hhead)
    exact ⟨error, hlast.trans herror, job, workerId, rng, summary,
      calls_of_step hm hrun hstep hcalls⟩
  rcases row_of_step hm hrun hstep he' with he | ⟨e, u, c, op, next, he, hev, ht, hp, heff⟩ |
    ⟨-, u, hlog⟩
  · exact hkept e' he rfl rfl
  · have hcalls : s'.calls u c := calls_of_step hm hrun hstep ⟨_, ht⟩
    cases heff.applies with
    | claim => simp [JobOp.claimed, JobEntry.claim, JobEntry.amend, JobEntry.startAttempt] at hhead
    | extend => exact hkept e he rfl rfl
    | summarize => exact hkept e he rfl rfl
    | reclaim =>
        simp [JobOp.reclaimed, JobEntry.amend, JobEntry.finishAttempt] at hhead
    | cancel => simp [JobEntry.amend] at hhead
    | requeue => simp [JobEntry.amend] at hhead
    | finish claim' tx snapshot workerId o now e hrunning hlocked =>
        simp only [JobOp.finished, JobEntry.finishAttempt, JobEntry.amend, List.head?_cons,
          Option.some.injEq, JobEvent.finished.injEq] at hhead
        obtain ⟨rfl, rfl, hhow⟩ := hhead
        cases heff.performs with
        | success => simp [Outcome.how] at hhow
        | release => simp [Outcome.how] at hhow
        | failure _ _ _ error rng summary decision _ hd =>
            refine ⟨error, ?_, snapshot, workerId, rng, summary, hcalls⟩
            cases hretry : decision.retry <;>
              simp [JobOp.finished, JobEntry.finishAttempt, JobEntry.amend, Outcome.update,
                JobRepository.finishFailure, hretry]
  · rw [hlog] at hhead
    cases hhead

omit hm hrun in
theorem calls_describe (hinv : SummaryInv describes s) (hgen : generated describes ev = true)
    {t : TxId} {claim : TxId} {job : Job} {workerId : WorkerId} {error : String} {rng : Draw}
    {text : String} (h : s'.calls t
      (.finalize claim job workerId (.completeFailure error rng (some text)))) :
    describes error text = true := by
  obtain ⟨rest, ht⟩ := h
  cases (Txn.System.steps_of_step hstep).thread t with
  | same heq => exact hinv.calls t claim job workerId error rng text ⟨rest, heq ▸ ht⟩
  | started c hev hfresh hmay hthread =>
      rw [hthread, Option.some.injEq, Txn.Thread.mk.injEq] at ht
      obtain ⟨rfl, -⟩ := ht
      subst hev
      exact hgen
  | advanced c st next r hold hthread =>
      rw [hthread, Option.some.injEq, Txn.Thread.mk.injEq] at ht
      obtain ⟨rfl, -⟩ := ht
      exact hinv.calls t claim job workerId error rng text ⟨_, hold⟩
  | cutOff c st next hev hold hthread =>
      rw [hthread, Option.some.injEq, Txn.Thread.mk.injEq] at ht
      obtain ⟨rfl, -⟩ := ht
      exact hinv.calls t claim job workerId error rng text ⟨_, hold⟩

theorem SummaryInv.step (hinv : SummaryInv describes s) (hgen : generated describes ev = true)
    (hkeeps : keepsSummaries describes s ev = true) : SummaryInv describes s' where
  fits := summaries_fit_of_step hm hrun hstep hinv hkeeps
  last _ _ _ _ he' hhead := last_of_step hm hrun hstep hinv he' hhead
  calls _ _ _ _ _ _ _ h := calls_describe hstep hinv hgen h

end Step

-- The runs in which summaries are generated from the errors of their calls, and stored in time.
def SummaryRun (describes : String → String → Bool) (m : Db) : State → Prop :=
  Reaches system.step
    (fun s ev _ => generated describes ev = true ∧ keepsSummaries describes s ev = true)
    (Txn.Pool.init m)

theorem summaryInv_of_run (hm : Initial m) (h : SummaryRun describes m s) :
    SummaryInv describes s := by
  refine h.invariant (P := SummaryInv describes) ⟨?_, ?_, ?_⟩ ?_
  · intro id e text he
    simp [committedJob, Txn.Pool.init, hm.job id, Txn.Cell.empty] at he
  · intro id e claim t he
    simp [committedJob, Txn.Pool.init, hm.job id, Txn.Cell.empty] at he
  · rintro t claim job workerId error rng text ⟨rest, ht⟩
    simp [Txn.Pool.init] at ht
  · intro s ev s' hs hinv hstep hok
    exact hinv.step hm (hs.mono fun s e s' _ => permitted_none s e s') hstep hok.1 hok.2

-- In the runs in which no summary is overtaken by a requeue, and no job goes back to the DLQ with
-- its old summary, summaries are about the failure on the row.
theorem summaries_describe (hm : Initial m) (h : SummaryRun describes m s) :
    (∀ ev s', system.step s ev = some s' → keepsSummaries describes s ev = true →
      SummaryStep s s' ev) ∧ SummariesFit describes s.mem :=
  have hinv := summaryInv_of_run hm h
  ⟨fun _ _ hstep hkeeps =>
    summaryStep hm (h.mono fun s e s' _ => permitted_none s e s') hstep hinv hkeeps, hinv.fits⟩

section Example

def exampleDescribes (error text : String) : Bool := text = "summary of " ++ error

def summaryChecks (s : State) (ev : Event) : Bool :=
  generated exampleDescribes ev && keepsSummaries exampleDescribes s ev

-- Job 7 has one attempt, which fails in worker 5; the first transaction of the failure commits.
def failingEvents : List Event :=
  whole 1 (.enqueue exampleUser { exampleBody none [] with maxAttempts := some 1 } ⟨7, 8, 9⟩) 8 ++
  whole 2 (.claimJobs (exampleClaim 5)) 7 ++
  whole 3 (.finalize 2 { exampleJob 5 1 0 with maxAttempts := 1 } 5
    (.completeFailure "boom" .zero (some "summary of boom"))) 5

def storeEvents : List Event := List.replicate 3 (.run 3)

-- Job 7 is requeued, and dies again by the reaper, with worker 6.
def secondDeathEvents : List Event :=
  whole 4 (.requeue 0 7) 4 ++ whole 5 (.claimJobs (exampleClaim 6)) 7 ++ [.tick 31] ++
  whole 6 (.reapOnce 60 id fun _ => Draw.zero) 9

-- The summary of the first failure comes after the second death.
def lateSummaryEvents : List Event := failingEvents ++ secondDeathEvents ++ storeEvents

-- The summary of the first failure is there already.
def oldSummaryEvents : List Event := failingEvents ++ storeEvents ++ secondDeathEvents

def showsSummary (error : String) (s : State) : Bool :=
  (committedJob s.mem 7).any fun e => e.job.status = .dead ∧ e.job.lastError = some error ∧
    e.job.aiSummary = some "summary of boom"

theorem not_fit_of_shows {s : State} (h : showsSummary (leaseExpiredError (some 6)) s = true) :
    ¬ SummariesFit exampleDescribes s.mem := by
  intro hfit
  obtain ⟨e, he, hshows⟩ := (Option.any_eq_true _ _).mp h
  obtain ⟨hdead, herror, hsummary⟩ := of_decide_eq_true hshows
  obtain ⟨error, herror', hdescribes⟩ := hfit 7 e _ he hdead hsummary
  rw [herror, Option.some.injEq] at herror'
  subst herror'
  revert hdescribes
  decide +kernel

theorem summary_outlives_failure :
    (¬ ∀ m s, Initial m → Reaches system.step (fun _ ev _ => generated exampleDescribes ev = true)
      (Txn.Pool.init m) s → SummariesFit exampleDescribes s.mem) ∧
    [lateSummaryEvents, oldSummaryEvents].all (fun events =>
      showsSummary (leaseExpiredError (some 6))
        (eventsAfter (fun _ => generated exampleDescribes) events)) = true := by
  refine ⟨fun h => ?_, by decide +kernel⟩
  have hshows : showsSummary (leaseExpiredError (some 6))
      (eventsAfter (fun _ => generated exampleDescribes) lateSummaryEvents) = true := by
    decide +kernel
  exact not_fit_of_shows hshows (h exampleDb _ exampleDb_initial (reaches_eventsAfter _ _))

theorem summaries_describe_boom :
    showsSummary "boom" (eventsAfter summaryChecks (failingEvents ++ storeEvents)) = true ∧
    (∀ ev s', system.step (eventsAfter summaryChecks (failingEvents ++ storeEvents)) ev = some s' →
      keepsSummaries exampleDescribes (eventsAfter summaryChecks (failingEvents ++ storeEvents)) ev =
        true → SummaryStep (eventsAfter summaryChecks (failingEvents ++ storeEvents)) s' ev) ∧
    SummariesFit exampleDescribes (eventsAfter summaryChecks (failingEvents ++ storeEvents)).mem :=
  ⟨by decide +kernel, summaries_describe exampleDb_initial
    ((reaches_eventsAfter summaryChecks (failingEvents ++ storeEvents)).mono fun s ev _ h => by
      simpa only [summaryChecks, Bool.and_eq_true] using h)⟩

end Example

end Chronos
