import Chronos.Refinement.ClaimJobs
import Chronos.Refinement.Queues
import Chronos.Refinement.Reaper
import Chronos.Refinement.Finalizers

namespace Chronos

open Txn (TxId Stable Triple Reaches)

variable {cond : Conditions} {t : TxId}

-- What a call starts with.
structure Started (t : TxId) (m : Db) : Prop where
  unlocked : Unlocked t m
  fresh : Unrecorded t m

theorem Started.noJobs {m : Db} (h : Started t m) : NoJobs t m := h.unlocked.noJobs

theorem started_of_fresh {s : State} (h : Txn.Pool.Inv (spec cond) s) (hfresh : t ∉ s.mem.opened) :
    Started t (s.mem.openTx t) where
  unlocked k v hp := hfresh (h.held k t v hp)
  fresh id e he ev hev htx := hfresh (h.inv.opened id e he ev hev t htx)

-- The claim a finalizer is called for has returned its job.
theorem handed_of_mayCall {s : State} (h : Txn.Pool.Inv (spec cond) s) {claim : TxId} {job : Job}
    {workerId : WorkerId} {f : Finalizer} (hmay : mayCall s (.finalize claim job workerId f) = true) :
    Handed claim workerId job s.mem := by
  unfold mayCall at hmay
  dsimp only at hmay
  split at hmay
  · rename_i args jobs hthread
    rw [decide_eq_true_eq] at hmay
    obtain ⟨rfl, hjob⟩ := hmay
    have hpost := h.safe claim (.claimJobs args) (.pure (.jobs jobs)) hthread s.mem .refl
    exact hpost.1 job hjob
  · cases hmay

theorem Returned.post {a : JobRepository.ClaimArgs} {jobs : List Job} {m : Db}
    (h : Returned t a.workerId jobs m) : post cond (.claimJobs a) t (.jobs jobs) m :=
  ⟨h.1, fun id e workerId pass he hmem => h.2 id e he workerId pass hmem⟩

theorem Enqueued.post {user : SessionUser} {data : JobCreate} {ids : FreshIds}
    {r : Except PyError (Job × Bool)} {m : Db} (h : Enqueued cond t user data r m) :
    post cond (.enqueue user data ids) t (.ofExcept (fun r => .enqueued r.1 r.2) r) m := by
  intro key hk hex
  obtain ⟨job, created, rfl, e, he, hhas, htrue, hfalse⟩ := h key hk hex
  refine ⟨job, created, rfl, e, he, hhas, htrue, fun hmem => ?_⟩
  cases created with
  | true => rfl
  | false => exact absurd rfl (hfalse rfl _ hmem)

section Bodies

variable {β : Type} {P : Db → Prop} {c : Call} {p : Tx β} {f : β → Value}

-- A call of which only the statements matter.
theorem triple_body (h : Triple (spec cond) c t P p fun _ => Unlocked t)
    (hpost : ∀ b m, post cond c t (f b) m) :
    Triple (spec cond) c t P (p >>= fun b => pure (f b)) (post cond c t) :=
  .bind (spec_sound cond) h fun b => .pure stable_unlocked fun m _ => hpost b m

end Bodies

-- Every call keeps its guarantee and returns what it should, whatever runs besides it.
theorem triple_call (c : Call) {s : State} (h : Txn.Pool.Inv (spec cond) s)
    (hmay : mayCall s c = true) (hadm : admits cond c s.mem) :
    ∃ P : Db → Prop, Triple (spec cond) c t P (c.body t) (post cond c t) ∧
      (Started t (s.mem.openTx t) → P (s.mem.openTx t)) := by
  cases c with
  | registerWorker workerId name concurrency =>
      exact ⟨_, triple_body (triple_registerWorker workerId name concurrency) fun _ _ => trivial,
        Started.noJobs⟩
  | heartbeat workerId leaseSeconds rank =>
      exact ⟨_, triple_body (triple_heartbeat rank) fun _ _ => trivial, Started.noJobs⟩
  | setWorkerStatus workerId status stopped =>
      exact ⟨_, triple_body (triple_setWorkerStatus workerId status stopped) fun _ _ => trivial,
        Started.noJobs⟩
  | claimJobs a =>
      refine ⟨_, .bind (spec_sound cond) triple_claimJobs fun jobs => ?_,
        fun hs => ⟨hs.unlocked, hs.fresh⟩⟩
      exact .pure (stable_unlocked.and (stable_returned a.workerId jobs)) fun m h => h.2.post
  | finalize claim job workerId f =>
      exact ⟨_, triple_finalizer f, fun hs =>
        ⟨hs.unlocked, hs.fresh, handed_of_mayCall h hmay⟩⟩
  | reapOnce offlineAfterSeconds rank rng =>
      refine ⟨_, .bind (spec_sound cond) triple_reapOnce fun r => ?_, Started.unlocked⟩
      cases r with
      | ok n => exact .pure (stable_unlocked.and (Stable.const _)) fun m h => trivial
      | error err =>
          refine Triple.assuming (fun m h => h.2) fun hok => ?_
          obtain ⟨n, hn⟩ := hok
          cases hn
  | enqueue user data ids =>
      refine ⟨_, .bind (spec_sound cond) (triple_enqueue hmay) fun r => ?_, fun hs =>
        ⟨hs.unlocked, hs.noJobs, hs.fresh, fun ⟨key, hk, hex⟩ => ?_⟩⟩
      · exact .pure (stable_unlocked.and (stable_enqueued r)) fun m h => h.2.post
      · obtain ⟨hstored, hqueue, hproject, hdeps, hnodup⟩ := hadm user data ids key rfl hk hex
        exact ⟨hstored, hqueue, hproject, hdeps, hnodup⟩
  | cancel ownerId jobId =>
      exact ⟨_, triple_body triple_cancel fun r _ => by cases r <;> trivial, Started.unlocked⟩
  | requeue ownerId jobId =>
      exact ⟨_, triple_body triple_requeue fun r _ => by cases r <;> trivial, Started.unlocked⟩
  | createQueue user projectId queue =>
      exact ⟨_, triple_body (triple_createQueue projectId hmay) fun r _ => by cases r <;> trivial,
        Started.noJobs⟩
  | updateQueue user queueId fields =>
      exact ⟨_, triple_body (triple_updateQueue queueId hmay) fun r _ => by cases r <;> trivial,
        Started.noJobs⟩

theorem spec_valid (cond : Conditions) : (spec cond).Valid system where
  sound := spec_sound cond
  environment _ _ _ hinv _ henv _ := hinv.environment henv
  abort _ _ _ _ hinv := .rollback hinv
  start s t c h hfresh hmay hadm hinv ha := by
    obtain ⟨P, htriple, hP⟩ := triple_call (t := t) c h hmay hadm
    have hwf : (s.mem.openTx t).WF := ⟨h.wf.nodup, h.wf.absent⟩
    exact htriple _ hwf hinv ha List.mem_cons_self (hP (started_of_fresh h hfresh))

theorem Initial.dbInv {m : Db} (h : Initial m) : DbInv cond m := by
  have hno : ∀ id e, committedJob m id ≠ some e := fun id e he => by
    rw [committedJob, h.job id] at he
    cases he
  have hpending : ∀ id p, pendingJob m id ≠ some p := fun id p hp => by
    rw [pendingJob, h.job id] at hp
    cases hp
  have hversion : ∀ id e, ¬ Version m id e := by
    rintro id e (he | ⟨s, hs⟩)
    · exact hno id e he
    · exact hpending id _ hs
  refine ⟨fun id e he => absurd he (hno id e), fun id e he => absurd he (hno id e),
    fun id e he => absurd he (hno id e), fun id e he => absurd he (hno id e),
    fun id e he => absurd he (hno id e), fun id id' e e' hv => absurd hv (hversion id e),
    ?_, ?_, ?_, fun id => h.unlocked _⟩
  · intro q k _
    have hempty : loaded m q = ∅ := by
      refine Finset.eq_empty_of_forall_notMem fun id hid => ?_
      obtain ⟨e, hv, -⟩ := running_iff.mp (mem_loaded.mp hid).2
      exact hversion id e hv
    refine ⟨fun id t e hp => absurd hp (hpending id _), ?_⟩
    rw [load, hempty, Finset.card_empty]
    exact le_max_right k 0
  · rintro id q (hq | ⟨s, hq⟩)
    · rw [committedQueue, h.queue id] at hq
      cases hq
    · rw [h.queue id] at hq
      cases hq
  · intro id s q q' hq
    rw [committedQueue, h.queue id] at hq
    cases hq

theorem Initial.inv {m : Db} (h : Initial m) : Txn.Pool.Inv (spec cond) (Txn.Pool.init m) where
  wf := h.wf
  inv := h.dbInv
  assume q k _ _ row hrow := by
    rw [committedQueue, Txn.Pool.init, h.queue q] at hrow
    cases hrow
  threads t ht := absurd rfl ht
  held k t v hp := by
    rw [Txn.Pool.init, h.unlocked k] at hp
    cases hp
  safe t c p ht := nomatch ht

-- The runs a result is about.
def Run (cond : Conditions) (m : Db) : State → Prop :=
  Reaches system.step (spec cond).Permitted (Txn.Pool.init m)

theorem Run.inv {m : Db} {s : State} (hm : Initial m) (h : Run cond m s) :
    Txn.Pool.Inv (spec cond) s :=
  hm.inv.reaches (spec_valid cond) h

theorem permitted_none (s : State) (e : Event) (s' : State) :
    (spec .none).Permitted s e s' where
  assume _ _ _ hq := nomatch hq
  start _ _ _ _ _ _ _ _ _ hex := hex.elim
  run _ _ _ _ _ _ _ :=
    ⟨fun _ _ _ _ _ _ _ _ _ => trivial, fun _ _ _ _ _ _ _ _ _ _ => trivial, fun _ _ _ _ h => h.elim,
      fun _ _ _ _ _ _ h => h.elim, fun _ _ _ _ h => absurd trivial h, fun _ _ _ h => absurd trivial h⟩

-- Every run is one under no condition.
theorem run_of_reachable {m : Db} {s : State} (h : system.Reachable m s) : Run .none m s :=
  h.mono fun s e s' _ => permitted_none s e s'

-- One run continued by another.
abbrev RunOn (cond : Conditions) : State → State → Prop :=
  Reaches system.step (spec cond).Permitted

theorem Run.call {m : Db} {s s' : State} (hm : Initial m) (h : Run cond m s) (hrun : RunOn cond s s')
    {c : Call} {rest : Option (Tx Value)} (ht : s.thread t = some ⟨c, rest⟩) :
    ∃ rest', s'.thread t = some ⟨c, rest'⟩ := by
  refine hrun.invariant (P := fun s' => ∃ rest', s'.thread t = some ⟨c, rest'⟩) ⟨rest, ht⟩ ?_
  intro s₁ ev s₂ hs ⟨rest₁, ht₁⟩ hstep _
  exact (Txn.System.steps_of_step hstep).call (Run.inv hm (h.trans hs)).threads ht₁

theorem Created.pending {c : Call} {m : Db} {id : JobId} {e : JobEntry} (h : Created c t m id e) :
    e.job.status = .pending := by
  have hstatus := h.ok.coherent.status
  rw [h.log, List.head?_cons, Option.map_some, Option.some.injEq] at hstatus
  exact hstatus.symm

-- What a step does to the committed rows of jobs.
inductive Published (cond : Conditions) (s : State) (ev : Event) (s' : State) (id : JobId) : Prop
  | same (h : committedJob s'.mem id = committedJob s.mem id)
  | changed (t : TxId) (c : Call) (p : Tx Value) (op : JobOp) (e e' : JobEntry)
      (hev : ev = .run t) (hthread : s.thread t = some ⟨c, some p⟩)
      (he : committedJob s.mem id = some e) (he' : committedJob s'.mem id = some e')
      (heff : Effect cond c t s.mem op e e')
  | created (t : TxId) (c : Call) (p : Tx Value) (e' : JobEntry)
      (hev : ev = .run t) (hthread : s.thread t = some ⟨c, some p⟩)
      (hnone : committedJob s.mem id = none) (he' : committedJob s'.mem id = some e')
      (hnew : Created c t s.mem id e')

theorem Run.published {m : Db} {s s' : State} (hm : Initial m) (h : Run cond m s) {ev : Event}
    (hstep : system.step s ev = some s') (hok : (spec cond).Permitted s ev s') (id : JobId) :
    Published cond s ev s' id := by
  rcases (Run.inv hm h).guarantee hstep hok with
    henv | ⟨t, -, hroll⟩ | ⟨t, c, p, hev, ht, hf, hg⟩
  · exact .same (by rw [committedJob, henv.cell, committedJob])
  · exact .same (by rw [committedJob, hroll, Txn.Store.rollback_committed, committedJob])
  · cases he' : committedJob s'.mem id with
    | none =>
        cases he : committedJob s.mem id with
        | none => exact .same (he'.trans he.symm)
        | some e =>
            obtain ⟨e'', he'', -⟩ := hg.entry hf he
            rw [he'] at he''
            cases he''
    | some e' =>
        rcases hg.published id e' he' with hold | ⟨e, op, he, heff⟩ | ⟨hnone, hnew⟩
        · exact .same (he'.trans hold.symm)
        · exact .changed t c p op e e' hev ht he he' heff
        · exact .created t c p e' hev ht hnone he' hnew

-- What holds of new jobs and survives every operation holds of all committed jobs of a run.
theorem Run.entries {m : Db} {s : State} (hm : Initial m) (h : Run cond m s)
    {R : JobId → JobEntry → Prop} (hnew : ∀ c t m id e, Created c t m id e → R id e)
    (hop : ∀ c t m op id e e', committedJob m id = some e → e.Ok →
      Effect cond c t m op e e' → R id e → R id e') :
    ∀ id e, committedJob s.mem id = some e → R id e := by
  refine h.invariant (P := fun s => ∀ id e, committedJob s.mem id = some e → R id e) ?_ ?_
  · intro id e he
    rw [committedJob, Txn.Pool.init, hm.job id] at he
    cases he
  · intro s ev s' hs hR hstep hok id e' he'
    cases Run.published hm hs hstep hok id with
    | same heq => exact hR id e' (heq ▸ he')
    | changed t c p op e d hev ht he hd heff =>
        obtain rfl : d = e' := Option.some.inj (hd.symm.trans he')
        exact hop c t s.mem op id e d he ((Run.inv hm hs).inv.ok id e he) heff (hR id e he)
    | created t c p d hev ht hnone hd hnew' =>
        obtain rfl : d = e' := Option.some.inj (hd.symm.trans he')
        exact hnew c t s.mem id d hnew'

-- What survives every operation stays true of a row along a run.
theorem Run.lasting {m : Db} {s s' : State} (hm : Initial m) (h : Run cond m s)
    (hrun : RunOn cond s s') {R : JobEntry → Prop} (hR : ∀ t, Lasting cond t R) {id : JobId}
    {e : JobEntry} (he : committedJob s.mem id = some e) (hr : R e) :
    ∃ e', committedJob s'.mem id = some e' ∧ R e' := by
  refine hrun.invariant (P := fun s' => ∃ e', committedJob s'.mem id = some e' ∧ R e')
    ⟨e, he, hr⟩ ?_
  intro s₁ act s₂ hs ⟨e₁, he₁, hr₁⟩ hstep hok
  cases Run.published hm (h.trans hs) hstep hok id with
  | same heq => exact ⟨e₁, heq.trans he₁, hr₁⟩
  | changed t c p op d d' hact ht hd hd' heff =>
      obtain rfl : d = e₁ := Option.some.inj (hd.symm.trans he₁)
      have hd₁ := (Run.inv hm (h.trans hs)).inv.ok id d hd
      exact ⟨d', hd', hR (t + 1) c t _ op d d' (Nat.ne_of_lt (Nat.lt_succ_self t)) hd₁ heff hr₁⟩
  | created t c p d hact ht hnone hd hnew =>
      rw [he₁] at hnone
      cases hnone

-- A history only grows.
theorem Run.mem_log {m : Db} {s s' : State} (hm : Initial m) (h : Run cond m s)
    (hrun : RunOn cond s s') {id : JobId} {e : JobEntry} (he : committedJob s.mem id = some e)
    {ev : JobEvent} (hev : ev ∈ e.log) : ∃ e', committedJob s'.mem id = some e' ∧ ev ∈ e'.log :=
  Run.lasting hm h hrun (fun _ => lasting_mem_log ev) he hev

end Chronos
