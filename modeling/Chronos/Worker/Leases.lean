import Chronos.Refinement.Runs
import Chronos.Worker.Runner

namespace Chronos

open Txn (TxId Reaches)

variable {workerId : WorkerId} {m : Db}

section Calls

variable {s s' : State} {ev : Event}

-- What the calls a runner waits for can return.
def Call.Yields : Call → Value → Prop
  | .claimJobs _, v => ∃ jobs, v = .jobs jobs
  | .finalize _ _ _ _, v => ∃ r : Except PyError Bool, v = .ofExcept .bool r
  | _, _ => True

theorem body_yields (c : Call) (t : TxId) : (c.body t).Yields c.Yields := by
  have hbind {β : Type} (p : Tx β) {f : β → Value} (h : ∀ b, c.Yields (f b)) :
      (p.bind fun b => .pure (f b)).Yields c.Yields := Txn.Prog.yields_bind (P := c.Yields) h p
  cases c with
  | claimJobs args => exact hbind _ fun jobs => ⟨jobs, rfl⟩
  | finalize claim job workerId f =>
      cases f with
      | completeSuccess result => exact hbind _ fun b => ⟨.ok b, rfl⟩
      | completeFailure error rng summary => exact hbind _ fun r => ⟨r, rfl⟩
      | releaseJob => exact hbind _ fun b => ⟨.ok b, rfl⟩
  | _ => exact hbind _ fun _ => trivial

-- The claim's call has returned `job` to its worker.
def Returns (s : State) (claim : TxId) (job : Job) (workerId : WorkerId) : Prop :=
  ∃ args jobs, s.thread claim = some ⟨.claimJobs args, some (.pure (.jobs jobs))⟩ ∧
    args.workerId = workerId ∧ job ∈ jobs

theorem returns_of_mayCall {claim : TxId} {job : Job} {f : Finalizer}
    (h : mayCall s (.finalize claim job workerId f) = true) : Returns s claim job workerId := by
  unfold mayCall at h
  dsimp only at h
  split at h
  · rename_i args jobs hthread
    rw [decide_eq_true_eq] at h
    exact ⟨args, jobs, hthread, h⟩
  · cases h

-- The histories and the calls of a run: a claim that is recorded has been made, a finalizer has a
-- claim that has returned.
structure CallsInv (s : State) : Prop where
  claims : ∀ id e claim worker pass, committedJob s.mem id = some e →
    .claimed claim worker pass ∈ e.log →
      ∃ args rest, s.thread claim = some ⟨.claimJobs args, rest⟩ ∧ args.workerId = worker
  yields : ∀ t c p, s.thread t = some ⟨c, some p⟩ → p.Yields c.Yields
  handed : ∀ t claim job worker f rest, s.thread t = some ⟨.finalize claim job worker f, rest⟩ →
    Returns s claim job worker

theorem thread_pure_of_step (hstep : system.step s ev = some s') {t : TxId} {c : Call} {v : Value}
    (hopen : t ∈ s.mem.opened) (ht : s.thread t = some ⟨c, some (.pure v)⟩) :
    s'.thread t = some ⟨c, some (.pure v)⟩ := by
  cases (Txn.System.steps_of_step hstep).thread t with
  | same h => exact h.trans ht
  | started c' he hfresh hmay h => exact absurd hopen hfresh
  | advanced c' st next r h h' =>
      rw [ht] at h
      cases h
  | cutOff c' st next he h h' =>
      rw [ht] at h
      cases h

theorem Returns.step (hopen : ∀ t, s.thread t ≠ none → t ∈ s.mem.opened)
    (hstep : system.step s ev = some s') {claim : TxId} {job : Job} {worker : WorkerId}
    (h : Returns s claim job worker) : Returns s' claim job worker := by
  obtain ⟨args, jobs, ht, h⟩ := h
  exact ⟨args, jobs, thread_pure_of_step hstep (hopen claim (by simp [ht])) ht, h⟩

theorem claimJobs_of_event {cond : Conditions} {c : Call} {t claim : TxId} {worker : WorkerId}
    {pass : Pass} {op : JobOp} {e e' : JobEntry} (h : Effect cond c t m op e e')
    (hev : op.event e = some (.claimed claim worker pass)) :
    t = claim ∧ ∃ args, c = .claimJobs args ∧ args.workerId = worker := by
  cases h.performs with
  | claim a now pass' =>
      cases hev
      exact ⟨rfl, a, rfl, rfl⟩
  | reclaim =>
      simp only [JobOp.event] at hev
      split at hev <;> cases hev
  | _ => cases hev

theorem mem_claimed_of_effect {cond : Conditions} {c : Call} {t claim : TxId} {worker : WorkerId}
    {pass : Pass} {op : JobOp} {e e' : JobEntry} (h : Effect cond c t m op e e')
    (hmem : .claimed claim worker pass ∈ e'.log) : .claimed claim worker pass ∈ e.log ∨
      t = claim ∧ ∃ args, c = .claimJobs args ∧ args.workerId = worker := by
  rw [h.applies.log, List.mem_append, Option.mem_toList] at hmem
  rcases hmem with hev | hold
  · exact .inr (claimJobs_of_event h hev)
  · exact .inl hold

theorem CallsInv.step (hm : Initial m) (hr : system.Reachable m s)
    (hstep : system.step s ev = some s') (h : CallsInv s) : CallsInv s' := by
  have hrun := run_of_reachable hr
  have hopen := (Run.inv hm hrun).threads
  have hsteps := Txn.System.steps_of_step hstep
  refine ⟨fun id e claim worker pass he hmem => ?_, fun t c p ht => ?_,
    fun t claim job worker f rest ht => ?_⟩
  · have hkept : ∀ args rest, s.thread claim = some ⟨.claimJobs args, rest⟩ →
        args.workerId = worker → ∃ args rest, s'.thread claim = some ⟨.claimJobs args, rest⟩ ∧
          args.workerId = worker := fun args rest ht hw => by
      obtain ⟨rest', ht'⟩ := hsteps.call hopen ht
      exact ⟨args, rest', ht', hw⟩
    cases Run.published hm hrun hstep (permitted_none s ev s') id with
    | same heq =>
        obtain ⟨args, rest, ht, hw⟩ := h.claims id e claim worker pass (heq ▸ he) hmem
        exact hkept args rest ht hw
    | changed t c p op d d' hev ht hd hd' heff =>
        obtain rfl : d' = e := Option.some.inj (hd'.symm.trans he)
        rcases mem_claimed_of_effect heff hmem with hold | ⟨rfl, args, rfl, hw⟩
        · obtain ⟨args, rest, ht', hw⟩ := h.claims id d claim worker pass hd hold
          exact hkept args rest ht' hw
        · exact hkept args _ ht hw
    | created t c p d hev ht hnone hd hnew =>
        obtain rfl : d = e := Option.some.inj (hd.symm.trans he)
        rw [hnew.log, List.mem_singleton] at hmem
        cases hmem
  · exact (hsteps.thread t).yields (Y := Call.Yields) (fun t c => body_yields c t) (h.yields t) ht
  · have hold : ∀ rest, s.thread t = some ⟨.finalize claim job worker f, rest⟩ →
        Returns s' claim job worker := fun rest ht =>
      (h.handed t claim job worker f rest ht).step hopen hstep
    cases hsteps.thread t with
    | same hsame => exact hold rest (hsame ▸ ht)
    | started c' he hfresh hmay h' =>
        obtain ⟨rfl, -⟩ := Txn.Thread.mk.inj (Option.some.inj (h'.symm.trans ht))
        exact (returns_of_mayCall (f := f) hmay).step hopen hstep
    | advanced c' st next r hbefore h' =>
        obtain ⟨rfl, -⟩ := Txn.Thread.mk.inj (Option.some.inj (h'.symm.trans ht))
        exact hold _ hbefore
    | cutOff c' st next he hbefore h' =>
        obtain ⟨rfl, -⟩ := Txn.Thread.mk.inj (Option.some.inj (h'.symm.trans ht))
        exact hold _ hbefore

-- A claim gets in force only by its own call.
theorem inForce_of_step (hm : Initial m) (hr : system.Reachable m s)
    (hstep : system.step s ev = some s') {claim : TxId} {id : JobId}
    (h : inForce s' claim id = true) : inForce s claim id = true ∨
      ∃ args p, ev = .run claim ∧ s.thread claim = some ⟨.claimJobs args, some p⟩ := by
  obtain ⟨e', he', hcur⟩ := (Option.any_eq_true _ _).mp h
  rw [decide_eq_true_eq] at hcur
  cases Run.published hm (run_of_reachable hr) hstep (permitted_none s ev s') id with
  | same heq =>
      rw [heq] at he'
      exact .inl ((Option.any_eq_true _ _).mpr ⟨e', he', by simpa using hcur⟩)
  | changed t c p op d d' hev ht hd hd' heff =>
      obtain rfl : d' = e' := Option.some.inj (hd'.symm.trans he')
      have hlog := heff.applies.log
      cases hop : op.event d with
      | none =>
          rw [hop, Option.toList_none, List.nil_append] at hlog
          refine .inl ((Option.any_eq_true _ _).mpr ⟨d, hd, ?_⟩)
          rw [JobEntry.currentClaim, hlog] at hcur
          exact decide_eq_true hcur
      | some new =>
          rw [hop, Option.toList_some, List.singleton_append] at hlog
          rw [JobEntry.currentClaim, hlog] at hcur
          cases new with
          | claimed claim' worker pass =>
              obtain rfl : claim' = claim := Option.some.inj hcur
              obtain ⟨rfl, args, rfl, -⟩ := claimJobs_of_event heff hop
              exact .inr ⟨args, p, hev, ht⟩
          | _ => cases hcur
  | created t c p d hev ht hnone hd hnew =>
      obtain rfl : d = e' := Option.some.inj (hd.symm.trans he')
      rw [JobEntry.currentClaim, hnew.log] at hcur
      cases hcur

theorem not_inForce_step (hm : Initial m) (hr : system.Reachable m s)
    (hstep : system.step s ev = some s') {claim : TxId} {id : JobId}
    (hover : ∀ c rest, s.thread claim = some ⟨c, rest⟩ → (∃ v, rest = some (.pure v)) ∨ rest = none ∨
      ev ≠ .run claim) (h : inForce s claim id = false) : inForce s' claim id = false := by
  rw [Bool.eq_false_iff] at h ⊢
  intro hforce
  rcases inForce_of_step hm hr hstep hforce with hold | ⟨args, p, hev, -⟩
  · exact h hold
  · cases hev ▸ Txn.System.steps_of_step hstep with
    | run t c st next r mem ht he =>
        rcases hover c _ ht with ⟨v, hv⟩ | hnone | hne
        · cases hv
        · cases hnone
        · exact hne hev

end Calls

section Runs

variable {s s' : Runner} {e : RunnerEvent}

-- What ends a claim in a run of the runner that keeps its leases.
structure RunnerInv (workerId : WorkerId) (m : Db) (s : Runner) : Prop where
  reach : system.Reachable m s.pool
  calls : CallsInv s.pool
  cutClaims : ∀ t args, s.pool.thread t = some ⟨.claimJobs args, none⟩ → args.workerId = workerId →
    ∀ id, inForce s.pool t id = false
  cutFinalizers : ∀ t claim job f, s.pool.thread t = some ⟨.finalize claim job workerId f, none⟩ →
    inForce s.pool claim job.id = false
  started : ∀ claim id, s.phase claim id ≠ .created → ∃ job, job.id = id ∧
    Returns s.pool claim job workerId
  calling : ∀ claim id t, s.phase claim id = .finishing t ∨ (∃ b, s.phase claim id = .releasing t b) →
    ∃ job f rest, s.pool.thread t = some ⟨.finalize claim job workerId f, rest⟩ ∧ job.id = id
  ended : ∀ claim id, s.phase claim id = .ended → inForce s.pool claim id = false

-- The calls that may be cut off.
def MayCut (workerId : WorkerId) (s : State) (t : TxId) : Prop :=
  (∀ args rest, s.thread t = some ⟨.claimJobs args, rest⟩ → args.workerId = workerId →
    ∀ id, inForce s t id = false) ∧
  ∀ claim job f rest, s.thread t = some ⟨.finalize claim job workerId f, rest⟩ →
    inForce s claim job.id = false

theorem Returns.over {s : State} {claim : TxId} {job : Job} (h : Returns s claim job workerId)
    {c : Call} {rest : Option (Tx Value)} (ht : s.thread claim = some ⟨c, rest⟩) :
    ∃ v, rest = some (.pure v) := by
  obtain ⟨args, jobs, hthread, -⟩ := h
  rw [hthread, Option.some.injEq, Txn.Thread.mk.injEq] at ht
  exact ⟨_, ht.2.symm⟩

theorem RunnerInv.pool_step (hm : Initial m) (h : RunnerInv workerId m s) {ev : Event} {pool : State}
    (hstep : system.step s.pool ev = some pool)
    (hcut : ∀ t, ev = .abort t → MayCut workerId s.pool t) :
    RunnerInv workerId m { s with pool := pool } := by
  have hopen := (Run.inv hm (run_of_reachable h.reach)).threads
  have hsteps := Txn.System.steps_of_step hstep
  have hkeep {claim : TxId} {job : Job} {id : JobId} (hret : Returns s.pool claim job workerId)
      (hno : inForce s.pool claim id = false) : inForce pool claim id = false :=
    not_inForce_step hm h.reach hstep (fun c rest ht => .inl (hret.over ht)) hno
  refine ⟨.tail h.reach hstep trivial, h.calls.step hm h.reach hstep, fun t args ht hw id => ?_,
    fun t claim job f ht => ?_, fun claim id hphase => ?_, fun claim id t hphase => ?_,
    fun claim id hphase => ?_⟩
  · cases hsteps.thread t with
    | same hsame =>
        have ht' : s.pool.thread t = some ⟨.claimJobs args, none⟩ := hsame.symm.trans ht
        refine not_inForce_step hm h.reach hstep (fun c rest hthread => ?_)
          (h.cutClaims t args ht' hw id)
        rw [ht', Option.some.injEq, Txn.Thread.mk.injEq] at hthread
        exact .inr (.inl hthread.2.symm)
    | started c he hfresh hmay h' => cases h'.symm.trans ht
    | advanced c st next r hold h' => cases h'.symm.trans ht
    | cutOff c st next he hold h' =>
        obtain ⟨rfl, -⟩ := Txn.Thread.mk.inj (Option.some.inj (h'.symm.trans ht))
        refine not_inForce_step hm h.reach hstep (fun c rest _ => .inr (.inr ?_))
          ((hcut t he).1 args _ hold hw id)
        simp [he]
  · cases hsteps.thread t with
    | same hsame =>
        have ht' : s.pool.thread t = some ⟨.finalize claim job workerId f, none⟩ :=
          hsame.symm.trans ht
        exact hkeep (h.calls.handed t claim job workerId f _ ht') (h.cutFinalizers t claim job f ht')
    | started c he hfresh hmay h' => cases h'.symm.trans ht
    | advanced c st next r hold h' => cases h'.symm.trans ht
    | cutOff c st next he hold h' =>
        obtain ⟨rfl, -⟩ := Txn.Thread.mk.inj (Option.some.inj (h'.symm.trans ht))
        exact hkeep (h.calls.handed t claim job workerId f _ hold) ((hcut t he).2 claim job f _ hold)
  · obtain ⟨job, hid, hret⟩ := h.started claim id hphase
    exact ⟨job, hid, hret.step hopen hstep⟩
  · obtain ⟨job, f, rest, ht, hid⟩ := h.calling claim id t hphase
    obtain ⟨rest', ht'⟩ := hsteps.call hopen ht
    exact ⟨job, f, rest', ht', hid⟩
  · have hne : s.phase claim id ≠ .created := fun hc => by
      rw [hc] at hphase
      cases hphase
    obtain ⟨job, -, hret⟩ := h.started claim id hne
    exact hkeep hret (h.ended claim id hphase)

theorem RunnerInv.setPhase (h : RunnerInv workerId m s) {claim : TxId} {id : JobId} {phase : Phase}
    (hret : ∃ job, job.id = id ∧ Returns s.pool claim job workerId)
    (hcall : ∀ t, phase = .finishing t ∨ (∃ b, phase = .releasing t b) →
      ∃ job f rest, s.pool.thread t = some ⟨.finalize claim job workerId f, rest⟩ ∧ job.id = id)
    (hended : phase = .ended → inForce s.pool claim id = false) :
    RunnerInv workerId m (s.setPhase claim id phase) := by
  refine ⟨h.reach, h.calls, h.cutClaims, h.cutFinalizers, fun c i hphase => ?_,
    fun c i t hphase => ?_, fun c i hphase => ?_⟩
  · simp only [Runner.setPhase] at hphase
    split at hphase
    · rename_i heq
      obtain ⟨rfl, rfl⟩ := heq
      exact hret
    · exact h.started c i hphase
  · simp only [Runner.setPhase] at hphase
    split at hphase
    · rename_i heq
      obtain ⟨rfl, rfl⟩ := heq
      exact hcall t hphase
    · exact h.calling c i t hphase
  · simp only [Runner.setPhase] at hphase
    split at hphase
    · rename_i heq
      obtain ⟨rfl, rfl⟩ := heq
      exact hended hphase
    · exact h.ended c i hphase

theorem RunnerInv.init (hm : Initial m) : RunnerInv workerId m (Runner.init m) := by
  refine ⟨.refl, ⟨fun id e claim worker pass he => ?_, fun t c p ht => ?_,
      fun t claim job w f rest ht => ?_⟩,
    fun t args ht => ?_, fun t claim job f ht => ?_, fun claim id h => absurd rfl h,
    fun claim id t h => ?_, fun claim id h => ?_⟩
  · rw [committedJob, Runner.init, Txn.Pool.init, hm.job id] at he
    cases he
  · cases ht
  · cases ht
  · cases ht
  · cases ht
  · rcases h with h | ⟨b, h⟩ <;> cases h
  · cases h

theorem RunnerInv.call (hm : Initial m) (h : RunnerInv workerId m s) {t claim : TxId} {job : Job}
    {f : Finalizer} {phase : Phase} (hcall : s.call workerId t claim job f phase = some s')
    (hphase : ∀ u, phase = .finishing u ∨ (∃ b, phase = .releasing u b) → u = t)
    (hended : phase ≠ .ended) : RunnerInv workerId m s' := by
  obtain ⟨pool, hstep, rfl⟩ := Option.map_eq_some_iff.mp hcall
  have hpool := h.pool_step hm hstep fun u hev => by cases hev
  have hopen := (Run.inv hm (run_of_reachable h.reach)).threads
  cases Txn.System.steps_of_step hstep with
  | start t c hfresh hmay =>
      have hret := (returns_of_mayCall (f := f) hmay).step hopen hstep
      refine hpool.setPhase ⟨job, rfl, hret⟩ (fun u hu => ?_) fun he => absurd he hended
      obtain rfl := hphase u hu
      exact ⟨job, f, _, Txn.Pool.set_thread_self _ _ _ _ _, rfl⟩

-- A call of a finalizer that is over has not left its claim in force.
theorem RunnerInv.over (hm : Initial m) (h : RunnerInv workerId m s) {t claim : TxId} {job : Job}
    {f : Finalizer} {rest : Option (Tx Value)}
    (ht : s.pool.thread t = some ⟨.finalize claim job workerId f, rest⟩)
    (hover : s.callOver t = true) : inForce s.pool claim job.id = false := by
  rw [Runner.callOver, ht] at hover
  match rest with
  | none => exact h.cutFinalizers t claim job f ht
  | some (.op st next) => cases hover
  | some (.pure v) =>
      have hpost := (Run.inv hm (run_of_reachable h.reach)).safe t _ _ ht s.pool.mem .refl
      obtain ⟨r, rfl⟩ := h.calls.yields t _ _ ht
      cases r with
      | error err => exact hpost.elim
      | ok done =>
          obtain ⟨⟨e, he, -, hcur, -⟩, -⟩ := hpost
          rw [inForce, he, Option.any_some, decide_eq_false_iff_not]
          exact hcur

theorem RunnerInv.close (hm : Initial m) (h : RunnerInv workerId m s) {t claim : TxId} {id : JobId}
    (hphase : s.phase claim id = .finishing t ∨ ∃ b, s.phase claim id = .releasing t b)
    (hover : s.callOver t = true) : RunnerInv workerId m (s.setPhase claim id .ended) := by
  obtain ⟨job, f, rest, ht, rfl⟩ := h.calling claim id t hphase
  refine h.setPhase ⟨job, rfl, h.calls.handed t claim job workerId f rest ht⟩ (fun u hu => ?_)
    fun _ => h.over hm ht hover
  rcases hu with hu | ⟨b, hu⟩ <;> cases hu

theorem RunnerInv.cancel (hm : Initial m) (h : RunnerInv workerId m s) {t claim : TxId} {job : Job}
    (htask : Returns s.pool claim job workerId)
    (hcancel : s.cancel workerId claim job t = some s')
    (hok : s.phase claim job.id = .handling ∨ inForce s.pool claim job.id = false) :
    RunnerInv workerId m s' := by
  have hend {s : Runner} (h : RunnerInv workerId m s) (htask : Returns s.pool claim job workerId)
      (hno : inForce s.pool claim job.id = false) :
      RunnerInv workerId m (s.setPhase claim job.id .ended) := by
    refine h.setPhase ⟨job, rfl, htask⟩ (fun u hu => ?_) fun _ => hno
    rcases hu with hu | ⟨b, hu⟩ <;> cases hu
  have hother (hne : s.phase claim job.id ≠ .handling) : inForce s.pool claim job.id = false :=
    hok.elim (fun heq => absurd heq hne) fun hno => hno
  unfold Runner.cancel at hcancel
  split at hcancel
  · rename_i hphase
    cases hcancel
    exact hend h htask (hother (by simp [hphase]))
  · refine h.call hm hcancel (fun u hu => ?_) (by simp)
    rcases hu with hu | ⟨b, hu⟩
    · cases hu
    · cases hu
      rfl
  · rename_i u hphase
    obtain ⟨pool, hstep, rfl⟩ := Option.map_eq_some_iff.mp hcancel
    have hno := hother (by simp [hphase])
    obtain ⟨job', f, rest, ht, hid⟩ := h.calling claim job.id u (.inl hphase)
    have hpool := h.pool_step hm hstep fun v hv => by
      obtain rfl : u = v := Txn.Event.abort.inj hv
      refine ⟨fun args rest' ht' => ?_, fun c j f' rest' ht' => ?_⟩
      · rw [ht] at ht'
        cases ht'
      · obtain ⟨hcall, -⟩ := Txn.Thread.mk.inj (Option.some.inj (ht.symm.trans ht'))
        obtain ⟨rfl, rfl, -, -⟩ := Call.finalize.inj hcall
        rw [hid]
        exact hno
    have hopen := (Run.inv hm (run_of_reachable h.reach)).threads
    refine hend hpool (htask.step hopen hstep) ?_
    exact not_inForce_step hm h.reach hstep (fun c rest ht => .inl (htask.over ht)) hno
  · rename_i hphase
    cases hcancel
    exact hend h htask (hother (by simp [hphase]))
  · cases hcancel

theorem mayCut_of_keepsLeases (hinv : Txn.Pool.Inv (spec .none) s.pool) {t : TxId}
    (h : keepsLeases workerId s (.pool (.abort t)) = true) : MayCut workerId s.pool t := by
  refine ⟨fun args rest ht hw id => ?_, fun claim job f rest ht => ?_⟩
  · simp only [keepsLeases, ht, hw, ne_eq, not_true_eq_false, decide_false, Bool.false_or] at h
    rw [Bool.eq_false_iff]
    intro hforce
    obtain ⟨e, he, -⟩ := (Option.any_eq_true _ _).mp hforce
    have hall := List.all_eq_true.mp h id (mem_jobIds.mpr (hinv.wf.mem_of_committed he))
    rw [hforce] at hall
    cases hall
  · simpa [keepsLeases, ht] using h

theorem RunnerInv.step (hm : Initial m) (h : RunnerInv workerId m s)
    (hstep : s.step workerId e = some s') (hok : keepsLeases workerId s e = true) :
    RunnerInv workerId m s' := by
  cases e with
  | pool ev =>
      simp only [Runner.step] at hstep
      split at hstep
      · cases hstep
      · obtain ⟨pool, hpool, rfl⟩ := Option.map_eq_some_iff.mp hstep
        refine h.pool_step hm hpool fun t ht => ?_
        subst ht
        exact mayCut_of_keepsLeases (Run.inv hm (run_of_reachable h.reach)) hok
  | begin claim job =>
      simp only [Runner.step, Option.ite_none_right_eq_some] at hstep
      obtain ⟨⟨htask, hphase⟩, hs'⟩ := hstep
      cases hs'
      refine h.setPhase ⟨job, rfl, returns_of_mayCall (f := .releaseJob) htask⟩ (fun u hu => ?_)
        fun he => by cases he
      rcases hu with hu | ⟨b, hu⟩ <;> cases hu
  | finish claim job f t =>
      simp only [Runner.step, Option.ite_none_right_eq_some] at hstep
      obtain ⟨⟨htask, hphase⟩, hs'⟩ := hstep
      unfold Runner.finish at hs'
      split at hs'
      · refine h.call hm hs' (fun u hu => ?_) (by simp)
        rcases hu with hu | ⟨b, hu⟩
        · cases hu
        · cases hu
          rfl
      · refine h.call hm hs' (fun u hu => ?_) (by simp)
        rcases hu with hu | ⟨b, hu⟩
        · cases hu
          rfl
        · cases hu
  | escape claim job =>
      simp only [Runner.step, Option.ite_none_right_eq_some] at hstep
      obtain ⟨⟨htask, -⟩, hs'⟩ := hstep
      cases hs'
      have hno : inForce s.pool claim job.id = false := by simpa [keepsLeases] using hok
      refine h.setPhase ⟨job, rfl, returns_of_mayCall (f := .releaseJob) htask⟩ (fun u hu => ?_)
        fun _ => hno
      rcases hu with hu | ⟨b, hu⟩ <;> cases hu
  | close claim job =>
      simp only [Runner.step] at hstep
      split at hstep
      · rename_i t hphase
        rw [Option.ite_none_right_eq_some] at hstep
        obtain ⟨hover, hs'⟩ := hstep
        cases hs'
        exact h.close hm (.inl hphase) hover
      · rename_i t b hphase
        rw [Option.ite_none_right_eq_some] at hstep
        obtain ⟨hover, hs'⟩ := hstep
        cases hs'
        exact h.close hm (.inr ⟨b, hphase⟩) hover
      · cases hstep
  | drain =>
      simp only [Runner.step, Option.ite_none_right_eq_some] at hstep
      obtain ⟨-, hs'⟩ := hstep
      cases hs'
      exact ⟨h.reach, h.calls, h.cutClaims, h.cutFinalizers, h.started, h.calling, h.ended⟩
  | cancel claim job t =>
      simp only [Runner.step, Option.ite_none_right_eq_some] at hstep
      obtain ⟨⟨-, htask⟩, hs'⟩ := hstep
      refine h.cancel hm (returns_of_mayCall (f := .releaseJob) htask) hs' ?_
      simpa [keepsLeases] using hok
  | stop =>
      simp only [Runner.step, Option.ite_none_right_eq_some] at hstep
      obtain ⟨-, hs'⟩ := hstep
      cases hs'
      exact ⟨h.reach, h.calls, h.cutClaims, h.cutFinalizers, h.started, h.calling, h.ended⟩

theorem runnerInv_of_run (hm : Initial m)
    (h : Reaches (fun s => s.step workerId) (fun s e _ => keepsLeases workerId s e = true)
      (Runner.init m) s) : RunnerInv workerId m s :=
  h.invariant (.init hm) fun _ _ _ _ hi hstep hok => hi.step hm hstep hok

-- Whoever holds a lease executes the job, or its claim has still to return it.
theorem RunnerInv.live (hm : Initial m) (h : RunnerInv workerId m s) {id : JobId} {row : JobEntry}
    (he : committedJob s.pool.mem id = some row) (hg : leaseGuard workerId row.job = true) :
    ∃ claim, row.currentClaim = some claim ∧ s.live workerId claim id = true := by
  have hinv := Run.inv hm (run_of_reachable h.reach)
  obtain ⟨claim, pass, hhead, hcur⟩ := (hinv.inv.ok id row he).claimed_of_guard hg
  have hforce : inForce s.pool claim id = true := by
    rw [inForce, he, Option.any_some, hcur, decide_eq_true rfl]
  have hmem := List.mem_of_head? hhead
  obtain ⟨args, rest, ht, hw⟩ := h.calls.claims id row claim workerId pass he hmem
  refine ⟨claim, hcur, ?_⟩
  match rest with
  | none =>
      rw [h.cutClaims claim args ht hw id] at hforce
      cases hforce
  | some (.op st next) =>
      rw [Runner.live, ht]
      exact decide_eq_true hw
  | some (.pure v) =>
      obtain ⟨jobs, rfl⟩ := h.calls.yields claim _ _ ht
      have hpost := hinv.safe claim _ _ ht s.pool.mem .refl
      obtain ⟨job, hjob, hid⟩ := hpost.2 id row workerId pass he hmem
      rw [Runner.live, ht]
      refine decide_eq_true ⟨hw, List.any_eq_true.mpr ⟨job, hjob, decide_eq_true hid⟩, fun hended => ?_⟩
      rw [h.ended claim id hended] at hforce
      cases hforce

end Runs

end Chronos
