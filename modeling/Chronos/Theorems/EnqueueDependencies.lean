import Chronos.Refinement.StageItems
import Chronos.Refinement.Checks

namespace Chronos

open Txn (TxId Runs Sees Settled Drafts Stmt stmt)
open JobService

variable {t : TxId} {user : SessionUser} {data : JobCreate} {ids : FreshIds} {v : Snapshot}
  {now : Time}

-- A target of the request is missing or somebody else's.
def Unowned (ownerId : UserId) (data : JobCreate) (v : Snapshot) : Prop :=
  ∃ d ∈ data.dependsOn, JobRepository.getForOwner d ownerId v = none

-- A database as its constraints leave it, and the ids it hands out next.
structure Fresh (v : Snapshot) (ids : FreshIds) : Prop where
  queues : ∀ id q, v.queue id = some q → q.checks = true
  freshJob : .job ids.job ∉ v.keys
  freshQueue : .queue ids.queue ∉ v.keys

section Lookups

theorem quiet_resolveQueue (id : QueueId) (p : Project) (name : String) :
    (resolveQueue id p name).All Stmt.Quiet := by
  unfold resolveQueue
  split
  · refine ⟨rfl, fun found => ?_⟩
    cases found with
    | some q => trivial
    | none =>
        refine ⟨rfl, fun ok => ?_⟩
        cases ok with
        | true => trivial
        | false =>
            refine ⟨rfl, fun again => ?_⟩
            cases again <;> trivial
  · trivial

theorem runs_unknownProject (hp : projectFor user data.projectId v = none) :
    Runs t (Sees t v now) (resolveProject user data.projectId) fun r m =>
      ∃ message, r = .error (.notFound message) ∧ Sees t v now m := by
  unfold resolveProject
  unfold projectFor at hp
  cases hid : data.projectId with
  | some id =>
      rw [hid] at hp
      refine .bind (.select _) fun found => .given fun hfound => ?_
      obtain rfl : found = none := hfound.trans hp
      exact .pure fun m h => ⟨_, rfl, h⟩
  | none =>
      rw [hid] at hp
      refine .bind (.select _) fun found => .given fun hfound => ?_
      obtain rfl : found = none := hfound.trans hp
      exact .pure fun m h => ⟨_, rfl, h⟩

-- The loop over the targets stops at the first that is missing or somebody else's.
theorem runs_checkDependencies (ownerId : UserId) (deps : List JobId) (workflowId : Option Nat) :
    Runs t (Sees t v now) (checkDependencies ownerId deps workflowId) fun r m =>
      Sees t v now m ∧
        ((∃ message, r = .error (.notFound message)) ∧
            (∃ d ∈ deps, JobRepository.getForOwner d ownerId v = none) ∨
          (∃ w, r = .ok w) ∧ ∀ d ∈ deps, JobRepository.getForOwner d ownerId v ≠ none) := by
  induction deps generalizing workflowId with
  | nil => exact .pure fun m h => ⟨h, .inr ⟨⟨_, rfl⟩, by simp⟩⟩
  | cons dep deps ih =>
      refine .bind (.select _) fun found => .given fun hfound => ?_
      cases found with
      | none => exact .pure fun m h => ⟨h, .inl ⟨⟨_, rfl⟩, dep, List.mem_cons_self, hfound.symm⟩⟩
      | some job =>
          refine (ih (job.workflowId <|> workflowId)).post fun r m h => ⟨h.1, h.2.imp ?_ ?_⟩
          · rintro ⟨hr, d, hd, hnone⟩
            exact ⟨hr, d, List.mem_cons_of_mem _ hd, hnone⟩
          · rintro ⟨hr, hall⟩
            refine ⟨hr, fun d hd => ?_⟩
            rcases List.mem_cons.mp hd with rfl | hd
            · simp [← hfound]
            · exact hall d hd

end Lookups

section Insert

variable {job : Job} {dependsOn : List JobId}

theorem runs_insertEntry (hnew : .job job.id ∉ v.keys) (hkey : job.idempotencyKey = none) :
    Runs t (Sees t v now) (insertEntry job.id (newRow t job []) (uqJobsOwnerIdempotency job))
      fun ok m => ok = true ∧ Sees t (v.with (.job job.id) (newRow t job [])) now m ∧
        (m.cell (.job job.id)).pending = some (t, newRow t job []) := by
  refine .stmt fun m hm => ?_
  have hfree : v.clashes (uqJobsOwnerIdempotency job) = false := by
    rw [Bool.eq_false_iff]
    intro hclash
    obtain ⟨key, hsome, -⟩ := (clashes_job hm job).mp hclash
    rw [hkey] at hsome
    cases hsome
  refine ⟨true, m.insert t (.job job.id) (newRow t job []), ?_, rfl, hm.insert _ hnew, by simp⟩
  rw [hm.exec_insert _ _ hnew, hfree]
  rfl

theorem runs_insertJob (hchecks : job.checks = true) (hnew : .job job.id ∉ v.keys)
    (hkey : job.idempotencyKey = none) (hnodup : dependsOn.Nodup) :
    Runs t (Sees t v now) (insertJob t job dependsOn) fun ok m => ok = true ∧
      Settled (v.with (.job job.id) (newRow t job dependsOn)) now m := by
  rw [insertJob, if_pos hchecks]
  refine .bind (runs_insertEntry hnew hkey) fun ok => .given fun hok => ?_
  subst hok
  simp only [if_true, if_pos hnodup]
  have hwrite : Runs t (fun m => Sees t (v.with (.job job.id) (newRow t job [])) now m ∧
        (m.cell (.job job.id)).pending = some (t, newRow t job []))
      (writeJob job.id fun e => { e with dependsOn := dependsOn }) fun _ m =>
        Sees t (v.with (.job job.id) (newRow t job dependsOn)) now m := by
    refine .stmt fun m hm => ⟨some (newRow t job dependsOn), _, ?_, sees_own_again hm.1 _⟩
    simp only [Txn.exec, hm.2, if_true]
    rfl
  exact .bind hwrite fun _ => .bind .commit fun _ => .pure fun m h => ⟨rfl, h⟩

-- A repeated target: uq_job_dep_pair refuses the second of the two rows.
theorem runs_insertJob_repeated {v₀ : Snapshot} (hchecks : job.checks = true)
    (hnew : .job job.id ∉ v.keys) (hkey : job.idempotencyKey = none)
    (hrepeated : ¬ dependsOn.Nodup) :
    Runs t (Drafts t v₀ v now) (insertJob t job dependsOn) fun ok m => ok = false ∧
      ∃ w, Drafts t v₀ w now m := by
  rw [insertJob, if_pos hchecks]
  refine .bind ((runs_insertEntry hnew hkey).drafts v₀ ⟨rfl, fun _ => trivial⟩) fun ok => ?_
  simp only [if_neg hrepeated]
  refine Runs.via (fun m => ok = true ∧ ∃ w, Drafts t v₀ w now m) (.given fun hok => ?_) ?_
  · subst hok
    exact .pure fun m h => ⟨rfl, h⟩
  · exact fun m h => ⟨h.1.1, _, h.1.2.1, h.2⟩

end Insert

section Enqueue

-- A request without a key, made in a database that is ready for it.
structure Keyless (data : JobCreate) (v : Snapshot) (ids : FreshIds) : Prop where
  accepted : data.accepted = true
  keyless : data.idempotencyKey = none
  fresh : Fresh v ids

-- Why a request is turned down before its rows are sent. The name of the queue is looked up after
-- the project and before the targets.
inductive TurnedDown (user : SessionUser) (data : JobCreate) (v : Snapshot) : PyError → Prop
  | notFound (message : String) (hcause : projectFor user data.projectId v = none ∨
      storableText data.queue = true ∧ Unowned user.id data v) :
      TurnedDown user data v (.notFound message)
  | name (hproject : projectFor user data.projectId v ≠ none)
      (hname : storableText data.queue = false) : TurnedDown user data v .dataError
  | values (hproject : projectFor user data.projectId v ≠ none) (howned : ¬ Unowned user.id data v)
      (hstored : data.storable = false) : TurnedDown user data v .dataError

-- How such a request ends, when nothing else is going on.
inductive Ends (t : TxId) (user : SessionUser) (data : JobCreate) (ids : FreshIds) (v : Snapshot)
    (now : Time) : Except PyError (Job × Bool) → Db → Prop
  | refused (err : PyError) (m : Db) (hcause : TurnedDown user data v err)
      (hrows : ∀ k, m.cell k = ⟨v.row k, none⟩) : Ends t user data ids v now (.error err) m
  | created (queue : Queue) (workflowId : Option Nat) (w : Snapshot) (m : Db)
      (hgrown : w = v ∨ ∃ q, w = v.with (.queue ids.queue) q)
      (hname : storableText data.queue = true) (hstored : data.storable = true)
      (hnodup : data.dependsOn.Nodup)
      (hsettled : Settled (w.with (.job ids.job) (newRow t
        (buildJob ids.job user.id queue data workflowId now) data.dependsOn)) now m) :
      Ends t user data ids v now
        (.ok (buildJob ids.job user.id queue data workflowId now, true)) m
  | repeated (m : Db) (hproject : projectFor user data.projectId v ≠ none)
      (howned : ¬ Unowned user.id data v) (hrepeated : ¬ data.dependsOn.Nodup)
      (hrows : ∀ k, m.cell k = ⟨v.row k, none⟩) :
      Ends t user data ids v now (.error .integrity) m

-- The same of create, before the session is left.
inductive Creates (t : TxId) (user : SessionUser) (data : JobCreate) (ids : FreshIds) (v : Snapshot)
    (now : Time) : Except PyError (Job × Bool) → Db → Prop
  | refused (err : PyError) (m : Db) (w : Snapshot) (hcause : TurnedDown user data v err)
      (hdrafts : Drafts t v w now m) : Creates t user data ids v now (.error err) m
  | ended (r : Except PyError (Job × Bool)) (m : Db) (h : Ends t user data ids v now r m)
      (hidle : m.Idle t) : Creates t user data ids v now r m

theorem getForOwner_with_queue (id : QueueId) (q : Queue) (d : JobId) (ownerId : UserId) :
    JobRepository.getForOwner d ownerId (v.with (.queue id) q) =
      JobRepository.getForOwner d ownerId v := by
  unfold JobRepository.getForOwner Snapshot.job
  rw [with_row_ne v (.queue id) (.job d) q (by simp)]

theorem unowned_with_queue (id : QueueId) (q : Queue) (ownerId : UserId) :
    Unowned ownerId data (v.with (.queue id) q) ↔ Unowned ownerId data v := by
  simp only [Unowned, getForOwner_with_queue]

section Queued

variable {w : Snapshot} {queue : Queue}

-- The rows of the request are sent.
theorem runs_insertOrRecover (workflowId : Option Nat) (hreq : Keyless data v ids)
    (hqueue : queue.checks = true) (hname : storableText data.queue = true)
    (hstored : data.storable = true) (hproject : projectFor user data.projectId v ≠ none)
    (howned : ¬ Unowned user.id data v) (hgrown : w = v ∨ ∃ q, w = v.with (.queue ids.queue) q) :
    Runs t (Drafts t v w now) (do
      let job := buildJob ids.job user.id queue data workflowId now
      if ← insertJob t job data.dependsOn then return .ok (job, true)
      else recover user data) (Creates t user data ids v now) := by
  have hchecks := buildJob_checks ids.job user.id workflowId now hreq.accepted hqueue
  have hnew : .job ids.job ∉ w.keys := by
    rcases hgrown with rfl | ⟨q, rfl⟩
    · exact hreq.fresh.freshJob
    · rw [Txn.View.mem_insert_keys, not_or]
      exact ⟨hreq.fresh.freshJob, by simp⟩
  by_cases hnodup : data.dependsOn.Nodup
  · refine .bind ((runs_insertJob hchecks hnew hreq.keyless hnodup).pre fun m h => h.sees)
      fun ok => .given fun hok => ?_
    subst hok
    refine .pure fun m h => .ended _ m ?_ fun k row hk => ?_
    · exact .created queue workflowId w m hgrown hname hstored hnodup h
    · simp [h.unlocked k] at hk
  · refine .bind (runs_insertJob_repeated hchecks hnew hreq.keyless hnodup) fun ok =>
      .given fun hok => ?_
    subst hok
    have hkey : truthyKey data = none := by simp [truthyKey, hreq.keyless]
    simp only [Bool.false_eq_true, if_false, recover, hkey]
    have hrollback : Runs t (fun m => ∃ w, Drafts t v w now m) (stmt .rollback) fun _ m =>
        ∀ k, m.cell k = ⟨v.row k, none⟩ :=
      .exists fun w => .stmt fun m hm => ⟨(), _, rfl, hm.rollback_cell⟩
    refine .bind hrollback fun _ => .pure fun m hm => ?_
    exact .ended _ m (.repeated m hproject howned hnodup hm) fun k row hk => by simp [hm k] at hk

-- What follows once the queue is there.
theorem runs_createIn (hreq : Keyless data v ids) (hqueue : queue.checks = true)
    (hname : storableText data.queue = true) (hproject : projectFor user data.projectId v ≠ none)
    (hgrown : w = v ∨ ∃ q, w = v.with (.queue ids.queue) q) :
    Runs t (Drafts t v w now) (do
      let workflowId := if data.dependsOn = [] then none else some ids.workflow
      match ← checkDependencies user.id data.dependsOn workflowId with
      | .error err => return .error err
      | .ok workflowId =>
          let job := buildJob ids.job user.id queue data workflowId now
          if data.storable then
            if ← insertJob t job data.dependsOn then return .ok (job, true)
            else recover user data
          else return .error .dataError) (Creates t user data ids v now) := by
  refine .bind ((runs_checkDependencies user.id data.dependsOn _).drafts v
    ((reads_checkDependencies _ _ _).mono fun _ h => h.quiet)) fun r => ?_
  have hsame : Unowned user.id data w ↔ Unowned user.id data v := by
    rcases hgrown with rfl | ⟨q', rfl⟩
    · exact Iff.rfl
    · exact unowned_with_queue ..
  refine Runs.via (fun m => ((∃ message, r = .error (.notFound message)) ∧
    Unowned user.id data v ∨ (∃ workflowId, r = .ok workflowId) ∧ ¬ Unowned user.id data v) ∧
      Drafts t v w now m) (.given fun hchecked => ?_) ?_
  · rcases hchecked with ⟨⟨message, rfl⟩, hunowned⟩ | ⟨⟨workflowId, rfl⟩, howned⟩
    · exact .pure fun m h => .refused _ m w (.notFound message (.inr ⟨hname, hunowned⟩)) h
    · by_cases hstored : data.storable = true
      · simp only [if_pos hstored]
        exact runs_insertOrRecover workflowId hreq hqueue hname hstored hproject howned hgrown
      · simp only [if_neg hstored]
        exact .pure fun m h => .refused _ m w
          (.values hproject howned (Bool.not_eq_true _ ▸ hstored)) h
  · rintro m ⟨⟨hsees, ⟨hr, hunowned⟩ | ⟨hr, hall⟩⟩, hcommitted⟩
    · exact ⟨.inl ⟨hr, hsame.mp hunowned⟩, hsees, hcommitted⟩
    · refine ⟨.inr ⟨hr, fun hunowned => ?_⟩, hsees, hcommitted⟩
      obtain ⟨d, hd, hnone⟩ := hsame.mpr hunowned
      exact hall d hd hnone

end Queued

theorem runs_create (hreq : Keyless data v ids) :
    Runs t (Drafts t v v now) (create t user data ids now) (Creates t user data ids v now) := by
  cases hp : projectFor user data.projectId v with
  | none =>
      refine .bind ((runs_unknownProject hp).drafts v
        ((reads_resolveProject _).mono fun _ h => h.quiet)) fun r => ?_
      rintro m ⟨⟨message, rfl, hsees⟩, hcommitted⟩
      exact ⟨_, m, rfl, .refused _ m v (.notFound message (.inl hp)) ⟨hsees, hcommitted⟩⟩
  | some p =>
      have hproject : projectFor user data.projectId v ≠ none := by simp [hp]
      let item : BatchItem := ⟨data, ids.job, ids.queue⟩
      have hresolve : Runs t (Sees t v now) (resolveProject user item.data.projectId)
          fun r m => r = .ok p ∧ Sees t v now m := runs_resolveProject hp
      refine .bind (hresolve.drafts v ((reads_resolveProject _).mono fun _ h => h.quiet)) fun r => ?_
      refine Runs.via (fun m => r = .ok p ∧ Drafts t v v now m) (.given fun hr => ?_)
        fun m h => ⟨h.1.1, h.1.2, h.2⟩
      subst hr
      by_cases hname : storableText data.queue = true
      · have hqueue : Runs t (Sees t v now) (resolveQueue item.queueId p item.data.queue) fun r m =>
            ∃ q w, r = .ok q ∧ Sees t w now m ∧ Resolved user v ([] ++ [item]) w ∧
              namedQueue user v ([] ++ [item]) p.id item.data.queue = some q ∧
              (w = v ∨ ∃ q', w = v.with (.queue item.queueId) q') :=
          runs_resolveQueue .refl hp hname hreq.fresh.freshQueue
        refine .bind (hqueue.drafts v (quiet_resolveQueue _ _ _)) fun r => ?_
        refine Runs.via (fun m => ∃ q w, (r = .ok q ∧ q.checks = true ∧
          (w = v ∨ ∃ q', w = v.with (.queue ids.queue) q')) ∧ Drafts t v w now m)
          (.exists fun q => .exists fun w => .given fun hfound => ?_) ?_
        · obtain ⟨rfl, hchecks, hgrown⟩ := hfound
          exact runs_createIn hreq hchecks hname hproject hgrown
        · rintro m ⟨⟨q, w, rfl, hsees, -, hnamed, hgrown⟩, hcommitted⟩
          have hchecks := queueFor_checks hreq.fresh.queues (queueFor_of_named hp [] rfl hnamed)
          exact ⟨q, w, ⟨rfl, hchecks, hgrown⟩, hsees, hcommitted⟩
      · simp only [resolveQueue, if_neg hname]
        exact .pure fun m h => .refused _ m v (.name hproject (Bool.not_eq_true _ ▸ hname)) h

theorem runs_enqueue (hreq : Keyless data v ids) :
    Runs t (Settled v now) (enqueue t user data ids) (Ends t user data ids v now) := by
  refine Runs.via (Drafts t v v now) ?_ fun m h => h.drafts t
  refine .bind (Runs.begin.drafts v ⟨rfl, fun _ => trivial⟩) fun now' => ?_
  refine Runs.via (fun m => now' = now ∧ Drafts t v v now m) (.given fun hnow => ?_)
    fun m h => ⟨h.1.1, h.1.2, h.2⟩
  subst hnow
  have hkey : truthyKey data = none := by simp [truthyKey, hreq.keyless]
  have hcheck : Runs t (Drafts t v v now') (preCheck user data) fun found m =>
      found = .ok none ∧ Drafts t v v now' m := by
    rw [preCheck, hkey]
    exact .pure fun m h => ⟨rfl, h⟩
  refine .bind hcheck fun found => .given fun hfound => ?_
  subst hfound
  refine .bind (runs_create hreq) fun r => .bind (Q := fun _ => Ends t user data ids v now' r)
    (.stmt fun m h => ⟨(), m.rollback t, rfl, ?_⟩) fun _ => .pure fun m h => h
  cases h with
  | refused err m w hcause hdrafts => exact .refused err _ hcause hdrafts.rollback_cell
  | ended r m h hidle =>
      rw [Txn.Store.rollback_eq_self hidle]
      exact h

end Enqueue

section Example

end Example

end Chronos
