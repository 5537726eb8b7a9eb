import Chronos.Txn.Linear
import Chronos.Refinement.Checks

namespace Chronos

open Txn (TxId Reaches Others Quiet Linear LinearAt Settles)

def Finalizer.outcome (job : Job) : Finalizer → Except PyError Outcome
  | .completeSuccess result => .ok (.success result)
  | .completeFailure error rng _ =>
      (decideFailure (policyOf job) job.attemptCount rng).map (.failure error)
  | .releaseJob => .ok .release

-- The calls that are about one job, and what each is to do to it.
inductive Operates (t : TxId) (now : Time) : Call → JobId → JobOp → Prop
  | finalize (claim : TxId) (job : Job) (workerId : WorkerId) (f : Finalizer) (o : Outcome)
      (h : f.outcome job = .ok o) :
      Operates t now (.finalize claim job workerId f) job.id (.finish claim t job workerId o now)
  | cancel (ownerId : UserId) (jobId : JobId) :
      Operates t now (.cancel ownerId jobId) jobId (.cancel ownerId now)
  | requeue (ownerId : UserId) (jobId : JobId) :
      Operates t now (.requeue ownerId jobId) jobId (.requeue ownerId now)

def Call.jobId : Call → Option JobId
  | .finalize _ job _ _ => some job.id
  | .cancel _ jobId => some jobId
  | .requeue _ jobId => some jobId
  | _ => none

-- What a request answers that finds the row `before` and makes `after` of it, if anything.
def transitionAnswer (ownerId : UserId) (conflict : String) (before : Option JobEntry) :
    Option JobEntry → Value
  | some e => .job e.job
  | none =>
      .raised (if before.any (·.job.ownerId = ownerId) then .conflict conflict
        else .notFound "job not found")

def Call.answer (before after : Option JobEntry) : Call → Value
  | .cancel ownerId _ =>
      transitionAnswer ownerId "only pending jobs can be cancelled" before after
  | .requeue ownerId _ =>
      transitionAnswer ownerId "only dead or cancelled jobs can be requeued" before after
  | _ => .bool after.isSome

-- The operation is performed in one piece: it decides the answer, and it is all that happens.
structure Atomically (c : Call) (id : JobId) (op : JobOp) (v : Value) (m m' : Db) : Prop where
  answer : v = c.answer (committedJob m id) ((committedJob m id).bind op.apply)
  row : committedJob m' id = ((committedJob m id).bind op.apply).or (committedJob m id)
  others : ∀ k, k ≠ .job id → (m'.cell k).committed = (m.cell k).committed

-- All that may follow is that the summary of the failure is stored.
structure Summarizes (id : JobId) (m m' : Db) : Prop where
  row : committedJob m' id = committedJob m id ∨ ∃ e text, committedJob m id = some e ∧
    committedJob m' id = some (e.assign (JobRepository.setAiSummary text).set)
  others : ∀ k, k ≠ .job id → (m'.cell k).committed = (m.cell k).committed

theorem summarizes_of_quiet {id : JobId} {m m' : Db} (h : Quiet m m') : Summarizes id m m' :=
  ⟨.inl (h _), fun k _ => h k⟩

section Rows

variable {t : TxId} {id : JobId} {e e' : JobEntry} {m m' : Db}

-- The transaction holds no row but the job's.
structure HoldsJob (t : TxId) (id : JobId) (e e' : JobEntry) (m : Db) : Prop where
  mine : m.mine t (.job id) = some e'
  only : ∀ k, k ≠ .job id → m.mine t k = none
  base : committedJob m id = some e

theorem HoldsJob.others (h : HoldsJob t id e e' m) (ho : Others t m m') : HoldsJob t id e e' m' where
  mine := ho.mine ▸ h.mine
  only := ho.mine ▸ h.only
  base := (ho.committed (.job id) (by simp [h.mine])).trans h.base

theorem HoldsJob.write (h : HoldsJob t id e e' m) {set : JobEntry → JobEntry}
    {r : Option JobEntry} (he : Txn.exec t (.write (Key.job id) set) m = some (r, m')) :
    Quiet m m' ∧ HoldsJob t id e (set e') m' := by
  rcases Txn.exec_write he with ⟨-, -, hnot⟩ | ⟨v, hv, -, rfl⟩
  · exact absurd (Txn.mine_eq_some.mp h.mine) (hnot e')
  · obtain rfl : v = e' := Option.some.inj ((Txn.mine_eq_some.mpr hv).symm.trans h.mine)
    refine ⟨Txn.quiet_own _, Txn.mine_own_self _, fun k hk => ?_, ?_⟩
    · rw [Txn.mine_own_ne _ hk]
      exact h.only k hk
    · exact (Txn.quiet_own _ _).trans h.base

theorem HoldsJob.commit (h : HoldsJob t id e e' m) : committedJob (m.commit t) id = some e' ∧
    ∀ k, k ≠ .job id → ((m.commit t).cell k).committed = (m.cell k).committed := by
  constructor
  · rw [committedJob, Txn.commit_committed, h.mine, Option.some_or]
  · intro k hk
    rw [Txn.commit_committed, h.only k hk, Option.none_or]

-- A guarded UPDATE of the job finds the committed row.
theorem update_job (hmine : m.mine t = fun _ => none) {cond : JobEntry → Bool}
    {set : JobEntry → JobEntry} {r : Option JobEntry}
    (he : Txn.exec t (.update (Key.job id) cond set) m = some (r, m')) : Quiet m m' ∧
      (r = none ∧ m' = m ∧ (∀ e, committedJob m id = some e → cond e = false) ∨
        ∃ e, cond e = true ∧ r = some (set e) ∧ HoldsJob t id e (set e) m') := by
  have hseen : (m.cell (.job id)).seen t = committedJob m id :=
    Txn.seen_of_not_mine (by rw [hmine])
  rcases Txn.exec_update he with ⟨rfl, rfl, hnot⟩ | ⟨e, hv, hcond, -, rfl, rfl⟩
  · exact ⟨Txn.quiet_refl _, .inl ⟨rfl, rfl, fun e he => hnot e (hseen.trans he)⟩⟩
  · refine ⟨Txn.quiet_own _, .inr ⟨e, hcond, rfl, Txn.mine_own_self _, fun k hk => ?_, ?_⟩⟩
    · rw [Txn.mine_own_ne _ hk, hmine]
    · exact (Txn.quiet_own _ _).trans (hseen.symm.trans hv)

end Rows

section Programs

variable {t : TxId} {A : Db → Prop} {id : JobId} {v : Value} {m : Db}

-- A transaction that has given up its locks.
structure Unheld (t : TxId) (m : Db) : Prop where
  wf : m.WF
  mine : m.mine t = fun _ => none

theorem Unheld.others {m' : Db} (h : Unheld t m) (ho : Others t m m') : Unheld t m' :=
  ⟨ho.wf, ho.mine.trans h.mine⟩

theorem unheld_rollback (hwf : m.WF) : Unheld t (m.rollback t) :=
  ⟨hwf.rollback, Txn.mine_rollback t m⟩

theorem settles_rollback {next : Unit → Tx Value}
    (h : ∀ m, Unheld t m → Settles t A (Summarizes id) v (next ()) m) :
    Settles t A (Summarizes id) v (.op .rollback next) m := by
  refine .op rfl fun m₁ r m₂ ho _ he => ?_
  simp only [Txn.exec, Option.some.injEq, Prod.mk.injEq] at he
  obtain ⟨-, rfl⟩ := he
  exact ⟨summarizes_of_quiet (Txn.quiet_rollback t m₁), h _ (unheld_rollback ho.wf)⟩

theorem settles_storeSummary (hm : Unheld t m) (text : String) :
    Settles t A (Summarizes id) v
      ((ExecutionService.storeSummary id text).bind fun _ => .pure v) m := by
  refine .op rfl fun m₁ now m₂ ho₁ _ he₁ => ?_
  simp only [Txn.exec, Option.some.injEq, Prod.mk.injEq] at he₁
  obtain ⟨-, rfl⟩ := he₁
  refine ⟨summarizes_of_quiet (Txn.quiet_refl _), .op rfl fun m₂ r m₃ ho₂ _ he₂ => ?_⟩
  obtain ⟨hquiet, hcases⟩ := update_job ((hm.others ho₁).others ho₂).mine he₂
  refine ⟨summarizes_of_quiet hquiet, .op rfl fun m₄ r' m₅ ho₃ _ he₃ => ?_⟩
  simp only [Txn.exec, Option.some.injEq, Prod.mk.injEq] at he₃
  obtain ⟨-, rfl⟩ := he₃
  refine ⟨?_, settles_rollback fun _ _ => .pure⟩
  rcases hcases with ⟨-, rfl, -⟩ | ⟨e, -, -, hholds⟩
  · refine summarizes_of_quiet fun k => ?_
    rw [Txn.commit_committed, (((hm.others ho₁).others ho₂).others ho₃).mine, Option.none_or]
  · obtain ⟨hrow, hothers⟩ := (hholds.others ho₃).commit
    exact ⟨.inr ⟨e, text, (hholds.others ho₃).base, hrow⟩, hothers⟩

-- The part the finalizers share, and what follows it.
theorem linear_finalize {c : Call} (hc : ∀ before after, c.answer before after = .bool after.isSome)
    (claim : TxId) (job : Job) (workerId : WorkerId) (o : Outcome) (now : Time)
    {next : Bool → Tx Value} (hnext : ∀ done m, Unheld t m →
      Settles t A (Summarizes job.id) (.bool done) (next done) m) (hm : Unheld t m) :
    Linear t A (Atomically c job.id (.finish claim t job workerId o now)) (Summarizes job.id)
      ((ExecutionService.finalize t claim job (o.update workerId now) o.how o.status o.error
        now).bind next) m := by
  refine .op rfl fun m₁ r m₂ ho₁ _ he₁ => ?_
  obtain ⟨hquiet, ⟨rfl, rfl, hnot⟩ | ⟨e, hcond, rfl, hholds⟩⟩ :=
    update_job (hm.others ho₁).mine he₁
  · have hnone : (committedJob m₂ job.id).bind
        (JobOp.finish claim t job workerId o now).apply = none := by
      rw [Option.bind_eq_none_iff]
      intro e he
      simp [JobOp.apply, JobOp.guarded, hnot e he]
    refine .inr ⟨.bool false, ⟨?_, ?_, fun _ _ => rfl⟩, ?_⟩
    · rw [hc, hnone, Option.isSome_none]
    · rw [hnone, Option.none_or]
    · exact settles_rollback fun m₃ hm₃ => settles_rollback fun m₄ hm₄ => hnext false m₄ hm₄
  · refine .inl ⟨hquiet, .op rfl fun m₃ r₃ m₄ ho₃ _ he₃ => ?_⟩
    obtain ⟨hquiet₄, hholds₄⟩ := (hholds.others ho₃).write he₃
    refine .inl ⟨hquiet₄, .op rfl fun m₅ r₅ m₆ ho₅ _ he₅ => ?_⟩
    simp only [Txn.exec, Option.some.injEq, Prod.mk.injEq] at he₅
    obtain ⟨-, rfl⟩ := he₅
    have hholds₅ := hholds₄.others ho₅
    obtain ⟨hrow, hothers⟩ := hholds₅.commit
    have hsome : (committedJob m₅ job.id).bind (JobOp.finish claim t job workerId o now).apply =
        some (JobOp.finished claim t job workerId o now e) := by
      rw [hholds₅.base, Option.bind_some]
      exact if_pos hcond
    refine .inr ⟨.bool true, ⟨?_, ?_, hothers⟩, ?_⟩
    · rw [hc, hsome, Option.isSome_some]
    · rw [hsome, Option.some_or]
      exact hrow
    · exact settles_rollback fun m₆ hm₆ => hnext true m₆ hm₆

-- The job is there, and whose it is.
def OwnedBy (id : JobId) (ownerId : UserId) (m : Db) : Prop :=
  ∃ e, committedJob m id = some e ∧ e.job.ownerId = ownerId

-- The request that finds nothing to do looks once more whose job it is.
theorem settles_conflict {owner ownerId : UserId} {conflict : String} {next : Option Job → Tx Value}
    (hv : v = transitionAnswer ownerId conflict (committedJob m id) none)
    (hnext : ∀ job, next job = .op .rollback fun _ => .pure (.raised
      (if job.isSome then .conflict conflict else .notFound "job not found")))
    (howned : OwnedBy id owner m) (hm : Unheld t m) :
    Settles t (OwnedBy id owner) (Summarizes id) v
      (.op (.select (JobRepository.getForOwner id ownerId)) next) m := by
  refine .op rfl fun m₁ job m₂ ho howned₁ he => ?_
  simp only [Txn.exec, Option.some.injEq, Prod.mk.injEq] at he
  obtain ⟨rfl, rfl⟩ := he
  obtain ⟨e, he, howner⟩ := howned
  obtain ⟨e₁, he₁, howner₁⟩ := howned₁
  have hview : Snapshot.job (m₁.view t) id = some e₁ :=
    (Txn.seen_of_not_mine (by rw [(hm.others ho).mine])).trans he₁
  have hsome : (JobRepository.getForOwner id ownerId (m₁.view t)).isSome =
      decide (owner = ownerId) := by
    rw [JobRepository.getForOwner, hview, Option.bind_some, howner₁]
    split <;> simp_all
  have hvalue : v = .raised (if (JobRepository.getForOwner id ownerId (m₁.view t)).isSome then
      .conflict conflict else .notFound "job not found") := by
    rw [hv, hsome, he, transitionAnswer, Option.any_some, howner]
  refine ⟨summarizes_of_quiet (Txn.quiet_refl _), ?_⟩
  rw [hnext, hvalue]
  exact settles_rollback fun _ _ => .pure

theorem linear_transition (c : Call) (op : Time → JobOp) {owner ownerId : UserId}
    {conflict : String} {u : Time → GuardedUpdate} {event : JobEvent}
    (hc : ∀ before after, c.answer before after = transitionAnswer ownerId conflict before after)
    (hop : ∀ now e, (op now).apply e = JobOp.guarded (u now) (JobEntry.amend (u now).set event) e)
    (hm : Unheld t m) {steps : List (Db × Db)} {out : Option Value} {m' : Db}
    (hexecs : Txn.Execs t ((JobService.transition ownerId id u event conflict).bind fun r =>
      .pure (Value.ofExcept .job r)) m steps out m')
    (howned : ∀ x ∈ steps, OwnedBy id owner x.1) :
    Txn.Linearized (fun now => Atomically c id (op now)) (Summarizes id) steps out := by
  refine Linear.of_begin (fun m₁ ho₁ _ => ?_) hexecs howned
  have hm₁ := hm.others ho₁
  refine .op rfl fun m₂ r m₃ ho₂ howned₂ he₂ => ?_
  obtain ⟨hquiet, ⟨rfl, rfl, hnot⟩ | ⟨e, hcond, rfl, hholds⟩⟩ :=
    update_job (hm₁.others ho₂).mine he₂
  · have hnone : (committedJob m₃ id).bind (op m₁.clock).apply = none := by
      rw [Option.bind_eq_none_iff]
      intro e he
      simp [hop, JobOp.guarded, hnot e he]
    refine .inr ⟨_, ⟨rfl, ?_, fun _ _ => rfl⟩, ?_⟩
    · rw [hnone, Option.none_or]
    · rw [hc, hnone]
      refine settles_conflict rfl (fun job => ?_) howned₂ (hm₁.others ho₂)
      cases job <;> rfl
  · refine .inl ⟨hquiet, .op rfl fun m₄ r₄ m₅ ho₄ _ he₄ => ?_⟩
    simp only [Txn.exec, Option.some.injEq, Prod.mk.injEq] at he₄
    obtain ⟨-, rfl⟩ := he₄
    have hholds₄ := hholds.others ho₄
    obtain ⟨hrow, hothers⟩ := hholds₄.commit
    have hsome : (committedJob m₄ id).bind (op m₁.clock).apply =
        some (e.amend (u m₁.clock).set event) := by
      rw [hholds₄.base, Option.bind_some, hop]
      exact if_pos hcond
    refine .inr ⟨_, ⟨rfl, ?_, hothers⟩, ?_⟩
    · rw [hsome, Option.some_or]
      exact hrow
    · rw [hc, hsome]
      exact settles_rollback fun _ _ => .pure

-- Without an outcome the failure raises before any statement.
theorem raised_of_outcome {claim : TxId} {job : Job} {workerId : WorkerId} {f : Finalizer}
    {err : PyError} (herr : f.outcome job = .error err) {steps : List (Db × Db)}
    {out : Option Value} {m' : Db}
    (hexecs : Txn.Execs t (Call.body t (.finalize claim job workerId f)) m steps out m') :
    steps = [] ∧ ∀ v, out = some v → v = .raised err := by
  cases f with
  | completeFailure error rng summary =>
      cases hdecision : decideFailure (policyOf job) job.attemptCount rng with
      | ok decision =>
          rw [Finalizer.outcome, hdecision] at herr
          cases herr
      | error err' =>
          rw [Finalizer.outcome, hdecision] at herr
          obtain rfl : err' = err := Except.error.inj herr
          simp only [Call.body, Finalizer.body, ExecutionService.completeFailure, hdecision] at hexecs
          cases hexecs with
          | ret => exact ⟨rfl, fun v hv => (Option.some.inj hv).symm⟩
          | cut => exact ⟨rfl, fun v hv => by cases hv⟩
  | _ => cases herr

theorem linear_finalizer {claim : TxId} {job : Job} {workerId : WorkerId} {f : Finalizer}
    {o : Outcome} (ho : f.outcome job = .ok o) (hm : Unheld t m) {steps : List (Db × Db)}
    {out : Option Value} {m' : Db}
    (hexecs : Txn.Execs t (Call.body t (.finalize claim job workerId f)) m steps out m')
    (hA : ∀ x ∈ steps, A x.1) :
    Txn.Linearized (fun now => Atomically (.finalize claim job workerId f) job.id
      (.finish claim t job workerId o now)) (Summarizes job.id) steps out := by
  have hanswer : ∀ before after, Call.answer before after (.finalize claim job workerId f) =
      .bool after.isSome := fun _ _ => rfl
  cases f with
  | completeSuccess result =>
      obtain rfl := Except.ok.inj ho
      refine Linear.of_begin (fun m₁ ho₁ _ => ?_) hexecs hA
      exact linear_finalize hanswer claim job workerId _ _ (fun _ _ _ => .pure) (hm.others ho₁)
  | completeFailure error rng summary =>
      cases hdecision : decideFailure (policyOf job) job.attemptCount rng with
      | error err =>
          rw [Finalizer.outcome, hdecision] at ho
          cases ho
      | ok decision =>
          rw [Finalizer.outcome, hdecision] at ho
          obtain rfl := Except.ok.inj ho
          simp only [Call.body, Finalizer.body, ExecutionService.completeFailure, hdecision] at hexecs
          refine Linear.of_begin (fun m₁ ho₁ _ => ?_) hexecs hA
          simp only [Txn.Prog.bind_eq, Txn.Prog.bind_assoc]
          refine linear_finalize hanswer claim job workerId (.failure error decision) _
            (fun done m₂ hm₂ => ?_) (hm.others ho₁)
          split
          · split
            · split
              · exact .pure
              · exact settles_storeSummary hm₂ _
            · exact .pure
          · exact .pure
  | releaseJob =>
      obtain rfl := Except.ok.inj ho
      refine Linear.of_begin (fun m₁ ho₁ _ => ?_) hexecs hA
      exact linear_finalize hanswer claim job workerId _ _ (fun _ _ _ => .pure) (hm.others ho₁)

end Programs

variable {m : Db} {s₀ s : State} {t : TxId} {c : Call} {id : JobId}

-- The call does to the job what it is to do at `now`, in one piece.
def Effective (t : TxId) (c : Call) (id : JobId) (now : Time) (v : Value) (m m' : Db) : Prop :=
  ∃ op, Operates t now c id op ∧ Atomically c id op v m m'

-- Finalizers, cancellations and requeues of a job that is there when they are made: what they answer
-- and all that they change is what one step decides, at a moment between call and return. One that
-- is cut off has got as far as that step, or has changed nothing.
theorem job_calls_linearizable (hm : Initial m) (h : system.Reachable m s₀)
    {path : List (State × Event × State)} (hpath : Txn.Path system s₀ path s)
    (ht : t ∉ s₀.mem.opened) {rest : Option (Tx Value)} (hc : s.thread t = some ⟨c, rest⟩)
    (hid : c.jobId = some id) (hjob : committedJob s₀.mem id ≠ none) :
    Txn.Linearized (Effective t c id) (Summarizes id) (Txn.own t path) none ∧
      ∀ v, rest = some (.pure v) →
        Txn.Linearized (Effective t c id) (Summarizes id) (Txn.own t path) (some v) := by
  obtain ⟨e₀, he₀⟩ := Option.ne_none_iff_exists'.mp hjob
  have hinv : ∀ s₁, Reaches system.step (fun _ _ _ => True) s₀ s₁ → s₁.mem.WF ∧
      (∀ t, s₁.thread t ≠ none → t ∈ s₁.mem.opened) ∧
      ∀ k t v, (s₁.mem.cell k).pending = some (t, v) → t ∈ s₁.mem.opened := by
    intro s₁ hs₁
    have hpool := Run.inv hm (run_of_reachable (h.trans hs₁))
    exact ⟨hpool.wf, hpool.threads, hpool.held⟩
  obtain ⟨m₀, hwf, hmine, ⟨m₁, hcut⟩, hreturned⟩ := hpath.execs ht hinv hc
  have howned : ∀ x ∈ Txn.own t path, OwnedBy id e₀.job.ownerId x.1 := by
    intro x hx
    obtain ⟨s₁, hs₁, hmem⟩ := hpath.mem_own hx
    have hon : RunOn .none s₀ s₁ := hs₁.mono fun s₁ ev s₂ _ => permitted_none s₁ ev s₂
    exact hmem ▸ Run.lasting hm (run_of_reachable h) hon
      (fun _ => lasting_ownerId e₀.job.ownerId) he₀ rfl
  have hall : ∀ out m', (∀ v, out = some v → rest = some (.pure v)) →
      Txn.Execs t (Call.body t c) m₀ (Txn.own t path) out m' →
        Txn.Linearized (Effective t c id) (Summarizes id) (Txn.own t path) out := by
    intro out m' hout hexecs
    cases c with
    | finalize claim job workerId f =>
        obtain rfl := Option.some.inj hid
        cases ho : f.outcome job with
        | ok o =>
            refine (linear_finalizer ho ⟨hwf, hmine⟩ hexecs howned).mono fun now v m m' hR => ?_
            exact ⟨_, .finalize claim job workerId f o ho, hR⟩
        | error err =>
            obtain ⟨hnil, hraised⟩ := raised_of_outcome ho hexecs
            refine .inr ⟨Option.eq_none_iff_forall_ne_some.mpr fun v hv => ?_, by simp [hnil]⟩
            obtain rfl := hraised v hv
            rw [hout _ hv] at hc
            exact (Run.inv hm (run_of_reachable (h.trans hpath.reaches))).safe t _ _ hc s.mem .refl
    | cancel ownerId jobId =>
        obtain rfl := Option.some.inj hid
        refine (linear_transition (.cancel ownerId jobId) (.cancel ownerId) (fun _ _ => rfl) (fun _ _ => rfl)
          ⟨hwf, hmine⟩ hexecs howned).mono fun now v m m' hR => ?_
        exact ⟨_, .cancel ownerId _, hR⟩
    | requeue ownerId jobId =>
        obtain rfl := Option.some.inj hid
        refine (linear_transition (.requeue ownerId jobId) (.requeue ownerId) (fun _ _ => rfl) (fun _ _ => rfl)
          ⟨hwf, hmine⟩ hexecs howned).mono fun now v m m' hR => ?_
        exact ⟨_, .requeue ownerId _, hR⟩
    | _ => cases hid
  refine ⟨hall none m₁ (fun v hv => by cases hv) hcut, fun v hv => ?_⟩
  obtain ⟨m', hexecs⟩ := hreturned v hv
  exact hall (some v) m' (fun w hw => Option.some.inj hw ▸ hv) hexecs

section Example

def cancelRefused (t : TxId) (s : State) : Bool :=
  match s.thread t with
  | some ⟨.cancel 0 7, some (.pure (.raised (.conflict _)))⟩ => true
  | _ => false

theorem thread_of_cancelRefused (h : cancelRefused t s = true) : ∃ text,
    s.thread t = some ⟨.cancel 0 7, some (.pure (.raised (.conflict text)))⟩ := by
  rw [cancelRefused] at h
  split at h
  · rename_i text hthread
    exact ⟨text, hthread⟩
  · cases h

-- The job is claimed after its owner has asked for it to be cancelled.
def overtakenEvents : List Event :=
  [.start 9 (.cancel 0 7), .run 9] ++ whole 2 (.claimJobs (exampleClaim 5)) 7 ++
    List.replicate 3 (.run 9)

def overtakenState : State :=
  (Txn.runAll system.step (fun _ _ _ => true) (stateAfter createdEvents) overtakenEvents).getD
    (stateAfter createdEvents)

theorem job_calls_linearizable_overtaken : ∃ path text,
    Txn.Path system (stateAfter createdEvents) path overtakenState ∧
      Txn.Linearized (Effective 9 (.cancel 0 7) 7) (Summarizes 7) (Txn.own 9 path)
        (some (.raised (.conflict text))) := by
  have hreach : Reaches system.step (fun _ _ _ => true = true) (stateAfter createdEvents)
      overtakenState := Reaches.getD_runAll (fun _ _ _ => true) overtakenEvents
  obtain ⟨path, hpath⟩ := hreach.exists_path
  have hrefused : cancelRefused 9 overtakenState = true := by decide +kernel
  obtain ⟨text, hthread⟩ := thread_of_cancelRefused hrefused
  have hfresh : 9 ∉ (stateAfter createdEvents).mem.opened := by decide +kernel
  have hjob : (committedJob (stateAfter createdEvents).mem 7).isSome = true := by decide +kernel
  obtain ⟨-, hanswer⟩ := job_calls_linearizable exampleDb_initial
    (reachable_stateAfter createdEvents) hpath hfresh hthread rfl (Option.isSome_iff_ne_none.mp hjob)
  exact ⟨path, text, hpath, hanswer _ rfl⟩

end Example

end Chronos
