import Chronos.Refinement.FirstUse

namespace Chronos

open Txn (TxId Upward Triple Adding)

variable {cron : CronClock} {m₀ m : Db} {c : FirstUseCall} {t : TxId} {user : SessionUser}
  {P : (∀ k, Option (Row k)) → Prop}

section Queue

open JobService

theorem QueueNames.projectFor (h : QueueNames m₀ m) (projectId : Option ProjectId) :
    projectFor user projectId (m.view t) = projectOf m₀ user projectId := by
  have hrow : Snapshot.project (m.view t) = Snapshot.project ⟨m₀.keys, m₀.stored⟩ := by
    funext id
    show (m.cell (.project id)).seen t = m₀.stored (.project id)
    rw [h.projects id]
    rfl
  have hids : Snapshot.projectIds (m.view t) = Snapshot.projectIds ⟨m₀.keys, m₀.stored⟩ :=
    h.projectIds
  exact projectFor_congr hrow hids user projectId

theorem places_resolveProject (hP : Upward P) {projectId : Option ProjectId} {p : Project}
    (hp : projectOf m₀ user projectId = some p) :
    (firstUse cron m₀).Does c t P (resolveProject user projectId) fun r rows =>
      r = .ok p ∧ P rows := by
  have hlookup : ∀ {query : Snapshot → Option Project}
      {next : Option Project → Tx (Except PyError Project)},
      next (some p) = pure (.ok p) →
      (∀ m : Db, query (m.view t) = projectFor user projectId (m.view t)) →
      (firstUse cron m₀).Does c t P (select query >>= next) fun r rows => r = .ok p ∧ P rows := by
    intro query next hnext hquery
    refine .bind Adding.sound (Adding.triple_select (Q := fun r rows => r = some p ∧ P rows) hP
      (fun r => (Upward.const _).and hP) fun m hat h => ⟨?_, h⟩) fun r => ?_
    · rw [hquery, hat.inv.projectFor, hp]
    · refine .assuming (fun m h => h.1) fun hr => ?_
      rw [hr, hnext]
      exact .pure (Adding.stable_view ((Upward.const _).and hP)) fun m h => ⟨rfl, h.2⟩
  cases projectId with
  | none => exact hlookup rfl fun m => rfl
  | some id => exact hlookup rfl fun m => rfl

-- A queue of that name can be seen.
def Named (p : Project) (name : String) (rows : ∀ k, Option (Row k)) : Prop :=
  ∃ id q, rows (.queue id) = some q ∧ q.projectId = p.id ∧ q.name = name

theorem upward_named (p : Project) (name : String) : Upward (Named p name) :=
  .exists fun id => Upward.row (V := Row) (.queue id) fun q => q.projectId = p.id ∧ q.name = name

theorem getByName_of_named (hwf : m.WF) {p : Project} {name : String}
    (h : Named p name (m.view t).row) :
    (QueueRepository.getByName p.id name (m.view t)).isSome = true := by
  obtain ⟨id, q, hq, hproject, hname⟩ := h
  have hkey : Key.queue id ∈ m.keys := by
    refine hwf.mem_of_seen (t := t) ?_
    rw [show (m.cell (.queue id)).seen t = some q from hq]
    simp
  rw [QueueRepository.getByName, List.find?_isSome]
  exact ⟨q, List.mem_filterMap.mpr ⟨id, List.mem_filterMap.mpr ⟨_, hkey, rfl⟩, hq⟩,
    by simpa using ⟨hproject, hname⟩⟩

variable {projectId : Option ProjectId} {p : Project} {name : String}

-- The queue a request is given.
def Given (m₀ : Db) (user : SessionUser) (projectId : Option ProjectId) (name : String) (q : Queue)
    (rows : ∀ k, Option (Row k)) : Prop :=
  q.checks = true ∧ QueueFor m₀ user projectId name q rows

theorem upward_given (q : Queue) : Upward (Given m₀ user projectId name q) :=
  (Upward.const _).and (upward_queueFor projectId name q)

theorem places_getByName (hP : Upward P) (hp : projectOf m₀ user projectId = some p) :
    (firstUse cron m₀).Does c t P (select (QueueRepository.getByName p.id name)) fun r rows =>
      ((∀ rows, P rows → Named p name rows) → r.isSome = true) ∧
        (∀ q, r = some q → Given m₀ user projectId name q rows) ∧ P rows := by
  refine Adding.triple_select hP (fun r => (Upward.const _).and
    ((Upward.all fun q => (upward_given q).imp).and hP)) fun m hat h => ⟨fun hnamed => ?_, ?_, h⟩
  · exact getByName_of_named hat.wf (hnamed _ h)
  · intro q hq
    obtain ⟨id, hid⟩ := mem_getByName hq
    obtain ⟨hchecks, rfl⟩ := hat.inv.checks id q (queueVersion_of_seen hid)
    have hfound := List.find?_some hq
    rw [decide_eq_true_eq] at hfound
    exact ⟨hchecks, hid, ⟨p, hp, hfound.1⟩, hfound.2⟩

-- The INSERT of a queue. Only a schedule's is taken to be the first.
theorem places_insertQueue (hP : Upward P) (hp : projectOf m₀ user projectId = some p)
    (id : QueueId) :
    (firstUse cron m₀).Does c t P
      (insertQueue id (Queue.fresh id p.id name) (uqQueuesProjectName (Queue.fresh id p.id name)))
      fun ok rows => (ok = true → Given m₀ user projectId name (Queue.fresh id p.id name) rows) ∧
        (ok = false → c.schedules = false ∧ Named p name rows) ∧ P rows := by
  refine Adding.triple_insert hP (fun ok => (upward_given _).imp.and
    (((Upward.const _).and (upward_named p name)).imp.and hP)) (fun m hat h hclash hperm => ?_)
      (fun m hat hk hclash hwaits => ?_) fun rows h hrow => ?_
  · refine ⟨fun hok => absurd hok Bool.false_ne_true, fun _ => ⟨?_, ?_⟩, h⟩
    · by_contra hschedules
      have hfirst := hperm.2 (Bool.not_eq_false _ ▸ hschedules)
      exact absurd (hclash.symm.trans hfirst) (by simp)
    · obtain ⟨k, -, hk⟩ := List.any_eq_true.mp hclash
      obtain ⟨row, hrow, hname⟩ := (Option.any_eq_true _ _).mp hk
      cases k with
      | queue id' =>
          rw [uqQueuesProjectName, decide_eq_true_eq] at hname
          exact ⟨id', row, hrow, hname⟩
      | _ => cases hname
  · exact hat.inv.insert_queue hat.wf hat.added hk (Queue.fresh_checks id p.id name) hclash hwaits
  · exact ⟨fun _ => ⟨Queue.fresh_checks id p.id name, hrow, ⟨p, hp, rfl⟩, rfl⟩,
      fun hok => absurd hok.symm Bool.false_ne_true, h⟩

theorem places_given (hP : Upward P) (q : Queue) {φ : Prop} :
    (firstUse cron m₀).Does c t (fun rows => φ ∧ Given m₀ user projectId name q rows ∧ P rows)
      (pure (Except.ok (ε := PyError) q)) fun r rows =>
        (∃ q, r = .ok q ∧ Given m₀ user projectId name q rows) ∧ P rows :=
  Adding.does_pure ((Upward.const _).and ((upward_given q).and hP))
    fun _ h => ⟨⟨q, rfl, h.2.1⟩, h.2.2⟩

-- Whoever loses the race for the name has the queue of the winner.
theorem places_resolveQueue (hP : Upward P) (hp : projectOf m₀ user projectId = some p)
    (hname : storableText name = true) (id : QueueId) :
    (firstUse cron m₀).Does c t P (resolveQueue id p name) fun r rows =>
      (∃ q, r = .ok q ∧ Given m₀ user projectId name q rows) ∧ P rows := by
  rw [resolveQueue, if_pos hname]
  refine .bind Adding.sound (places_getByName hP hp) fun r => ?_
  cases r with
  | some q =>
      exact (places_given hP q (φ := True)).pre
        fun m _ _ _ _ h => ⟨trivial, h.2.1 q rfl, h.2.2⟩
  | none =>
      refine .bind Adding.sound ((places_insertQueue hP hp id).pre
        fun m _ _ _ _ h => h.2.2) fun ok => ?_
      cases ok with
      | true =>
          exact (places_given hP _ (φ := True)).pre fun m _ _ _ _ h => ⟨trivial, h.1 rfl, h.2.2⟩
      | false =>
          refine .bind Adding.sound ((places_getByName ((upward_named p name).and hP) hp).pre
            fun m _ _ _ _ h => ⟨(h.2.1 rfl).2, h.2.2⟩) fun again => ?_
          cases again with
          | none =>
              refine .assuming (fun m h => h.1) fun hfound => ?_
              exact absurd (hfound fun rows h => h.1) (by simp)
          | some q =>
              exact (places_given hP q (φ := True)).pre
                fun m _ _ _ _ h => ⟨trivial, h.2.1 q rfl, h.2.2.2⟩

-- A schedule has the queue it inserts, if it is not refused.
theorem places_scheduleQueue (hP : Upward P) (hp : projectOf m₀ user projectId = some p)
    (hname : storableText name = true) (hc : c.schedules = true) (id : QueueId) :
    (firstUse cron m₀).Does c t P (ScheduleService.resolveQueue id p name) fun r rows =>
      (∃ q, r = .ok q ∧ Given m₀ user projectId name q rows) ∧ P rows := by
  rw [ScheduleService.resolveQueue, if_pos hname]
  refine .bind Adding.sound (places_getByName hP hp) fun r => ?_
  cases r with
  | some q =>
      exact (places_given hP q (φ := True)).pre
        fun m _ _ _ _ h => ⟨trivial, h.2.1 q rfl, h.2.2⟩
  | none =>
      refine .bind Adding.sound ((places_insertQueue hP hp id).pre
        fun m _ _ _ _ h => h.2.2) fun ok => ?_
      cases ok with
      | true =>
          exact (places_given hP _ (φ := True)).pre fun m _ _ _ _ h => ⟨trivial, h.1 rfl, h.2.2⟩
      | false =>
          refine .assuming (fun m h => (h.2.1 rfl).1) fun hnot => ?_
          exact absurd (hc.symm.trans hnot) (by simp)

end Queue

section Enqueue

open JobService

def Owned (ownerId : UserId) (id : JobId) (rows : ∀ k, Option (Row k)) : Prop :=
  ∃ e, rows (.job id) = some e ∧ e.job.ownerId = ownerId

theorem upward_owned (ownerId : UserId) (id : JobId) : Upward (Owned ownerId id) :=
  Upward.row (V := Row) (.job id) fun e => e.job.ownerId = ownerId

theorem places_checkDependencies (hP : Upward P) (ownerId : UserId) (deps : List JobId)
    (workflowId : Option Nat) :
    (firstUse cron m₀).Does c t (fun rows => (∀ d ∈ deps, Owned ownerId d rows) ∧ P rows)
      (checkDependencies ownerId deps workflowId) fun r rows => (∃ w, r = .ok w) ∧ P rows := by
  have howned : ∀ deps : List JobId, Upward fun rows => ∀ d ∈ deps, Owned ownerId d rows :=
    fun deps => .all fun d => (upward_owned ownerId d).imp
  induction deps generalizing workflowId with
  | nil => exact Adding.does_pure ((howned []).and hP) fun rows h => ⟨⟨workflowId, rfl⟩, h.2⟩
  | cons dep deps ih =>
      refine .bind Adding.sound (Adding.triple_select (Q := fun r rows => r.isSome = true ∧
        (∀ d ∈ deps, Owned ownerId d rows) ∧ P rows) ((howned _).and hP)
        (fun r => (Upward.const _).and ((howned deps).and hP)) fun m hat h => ?_) fun r => ?_
      · obtain ⟨e, he, howner⟩ := h.1 dep List.mem_cons_self
        refine ⟨?_, fun d hd => h.1 d (List.mem_cons_of_mem _ hd), h.2⟩
        have hview : Snapshot.job (m.view t) dep = some e := he
        rw [JobRepository.getForOwner, hview, Option.bind_some, if_pos howner]
        rfl
      · cases r with
        | none => exact .assuming (fun m h => h.1) fun hsome => absurd hsome (by simp)
        | some job => exact (ih _).pre fun m _ _ _ _ h => h.2

variable {data : JobCreate} {job : Job} {projectId : Option ProjectId} {name : String}

theorem places_insertEntry (hP : Upward P) (job : Job) (row : JobEntry) (hrow : row.job = job) :
    (firstUse cron m₀).Does c t P (insertEntry job.id row (uqJobsOwnerIdempotency job))
      fun ok rows => ok = true ∧ HasJob job rows ∧ P rows := by
  refine Adding.triple_insert hP (fun ok => (Upward.const _).and
    ((upward_hasJob job).and hP))
      (fun m hat h hclash hperm => ?_) (fun m hat _ _ _ => ?_) fun rows h hrow' => ?_
  · exact absurd (hclash.symm.trans hperm.1) (by simp)
  · exact hat.inv.insert_other (by simp) (by simp)
  · exact ⟨rfl, ⟨row, hrow', hrow⟩, h⟩

theorem places_insertJob (deps : List JobId) (hchecks : job.checks = true) (hnodup : deps.Nodup) :
    Triple (firstUse cron m₀).spec c t
      (fun m => RefersTo m₀ user projectId name job.queueId (m.view t).row) (insertJob t job deps)
      fun ok m => ok = true ∧ HasJob job m.stored ∧
        RefersTo m₀ user projectId name job.queueId m.stored := by
  have hrefers : Upward (RefersTo m₀ user projectId name job.queueId) :=
    upward_refersTo projectId name job.queueId
  have hboth : Upward fun rows =>
      HasJob job rows ∧ RefersTo m₀ user projectId name job.queueId rows :=
    (upward_hasJob job).and hrefers
  unfold insertJob
  rw [if_pos hchecks]
  refine .bind Adding.sound (places_insertEntry hrefers job _ rfl) fun ok => ?_
  refine .assuming (fun m h => h.1) fun hok => ?_
  subst hok
  rw [if_pos rfl, if_pos hnodup]
  refine .bind Adding.sound ((Adding.triple_write hboth hboth (fun rows h => h)
    (fun m v (hat : (firstUse cron m₀).At m) hv => hat.inv.own_other (by simp) (by simp)) ?_).pre
      fun m _ _ _ _ h => h.2) fun _ => ?_
  · intro rows rows' v h hv hv' hother
    obtain ⟨⟨e, he, hjob⟩, q, hq, hqueue⟩ := h
    obtain rfl := Option.some.inj (he.symm.trans hv)
    refine ⟨⟨_, hv', hjob⟩, q, hq, ?_, hqueue.project, hqueue.name⟩
    rw [hother _ (by simp)]
    exact hqueue.row
  · refine .bind Adding.sound (Adding.triple_commit hboth) fun _ => ?_
    exact .pure (Adding.stable_stored hboth) fun m h => ⟨rfl, h⟩

theorem places_create (hdata : data.accepted = true) (hstored : data.storable = true)
    (hname : storableText data.queue = true) {p : Project}
    (hp : projectOf m₀ user data.projectId = some p) (hnodup : data.dependsOn.Nodup)
    (ids : FreshIds) (now : Time) :
    Triple (firstUse cron m₀).spec c t
      (fun m => ∀ d ∈ data.dependsOn, Owned user.id d (m.view t).row) (create t user data ids now)
      fun r m => ∃ job, r = .ok (job, true) ∧ JobPlaced m₀ user data job m.stored := by
  have hdeps : Upward fun rows => ∀ d ∈ data.dependsOn, Owned user.id d rows :=
    .all fun d => (upward_owned user.id d).imp
  refine .bind Adding.sound (places_resolveProject hdeps hp) fun r => ?_
  refine .assuming (fun m h => h.1) fun hr => ?_
  subst hr
  refine .bind Adding.sound ((places_resolveQueue hdeps hp hname ids.queue).pre
    fun m _ _ _ _ h => h.2) fun r => ?_
  refine .assuming (φ := ∃ q, r = .ok q ∧ q.checks = true)
    (fun m h => h.1.imp fun q hq => ⟨hq.1, hq.2.1⟩) fun hr => ?_
  obtain ⟨q, rfl, hchecks⟩ := hr
  have hqueue : Upward (QueueFor m₀ user data.projectId data.queue q) :=
    upward_queueFor data.projectId data.queue q
  refine .bind Adding.sound ((places_checkDependencies hqueue user.id data.dependsOn _).pre
    fun m _ _ _ _ h => ⟨h.2, ?_⟩) fun r => ?_
  · obtain ⟨q', hq', hgiven⟩ := h.1
    exact Except.ok.inj hq' ▸ hgiven.2
  · refine .assuming (fun m h => h.1) fun hr => ?_
    obtain ⟨workflowId, rfl⟩ := hr
    have hjob := buildJob_checks ids.job user.id workflowId now hdata hchecks
    simp only [if_pos hstored]
    refine .bind Adding.sound ((places_insertJob data.dependsOn hjob hnodup).pre
      fun m _ _ _ _ h => ⟨q, rfl, h.2⟩) fun ok => ?_
    refine .assuming (fun m h => h.1) fun hok => ?_
    subst hok
    exact .pure (Adding.stable_stored ((Upward.const _).and ((upward_hasJob _).and
      (upward_refersTo _ _ _)))) fun m h => ⟨_, rfl, h.2.1, h.2.2⟩

theorem JobCreate.key_storable (h : data.storable = true) {key : String}
    (hkey : truthyKey data = some key) : storableText key = true := by
  simp only [JobCreate.storable, decide_eq_true_eq, Option.all_eq_true] at h
  exact h.2.2.2 key (Option.filter_eq_some_iff.mp hkey).1

theorem places_enqueue (hdata : data.accepted = true) (hstored : data.storable = true)
    (hname : storableText data.queue = true) {p : Project}
    (hp : projectOf m₀ user data.projectId = some p) (hnodup : data.dependsOn.Nodup)
    (ids : FreshIds) :
    Triple (firstUse cron m₀).spec c t
      (fun m => ∀ d ∈ data.dependsOn, Owned user.id d (m.view t).row) (enqueue t user data ids)
      fun r m => ∃ job created, r = .ok (job, created) ∧
        (created = true → JobPlaced m₀ user data job m.stored) := by
  have hdeps : Upward fun rows => ∀ d ∈ data.dependsOn, Owned user.id d rows :=
    .all fun d => (upward_owned user.id d).imp
  have hcheck : (firstUse cron m₀).Does c t (fun rows => ∀ d ∈ data.dependsOn, Owned user.id d rows)
      (preCheck user data) fun r rows =>
        (∃ found, r = .ok found) ∧ ∀ d ∈ data.dependsOn, Owned user.id d rows := by
    unfold preCheck
    cases hkey : truthyKey data with
    | none =>
        exact Adding.does_pure hdeps fun rows h => ⟨⟨none, rfl⟩, h⟩
    | some key =>
        simp only [if_pos (JobCreate.key_storable hstored hkey)]
        refine .bind Adding.sound (Adding.triple_select hdeps (fun _ => hdeps)
          fun m hat h => h) fun existing => ?_
        exact .pure (Adding.stable_view hdeps) fun m h => ⟨⟨existing, rfl⟩, h⟩
  refine .bind Adding.sound (Adding.triple_begin hdeps) fun now => ?_
  refine .bind Adding.sound hcheck fun r => ?_
  refine .assuming (fun m h => h.1) fun hr => ?_
  obtain ⟨found, rfl⟩ := hr
  cases found with
  | some job =>
      refine .bind Adding.sound ((Adding.triple_rollback (Upward.const True)).pre
        fun m _ _ _ _ h => trivial) fun _ => ?_
      exact .pure (Adding.stable_stored (Upward.const True)) fun m h => ⟨job, false, rfl, nofun⟩
  | none =>
      refine .bind Adding.sound ((places_create hdata hstored hname hp hnodup ids now).pre
        fun m _ _ _ _ h => h.2) fun r => ?_
      refine .assuming (φ := ∃ job, r = .ok (job, true)) (fun m h => h.imp fun _ hj => hj.1)
        fun hr => ?_
      obtain ⟨job, rfl⟩ := hr
      have hplaced : Upward (JobPlaced m₀ user data job) := upward_jobPlaced data job
      refine .bind Adding.sound ((Adding.triple_rollback hplaced).pre
        fun m _ _ _ _ h => ?_) fun _ => ?_
      · obtain ⟨job', hjob', h⟩ := h
        exact (Prod.mk.inj (Except.ok.inj hjob')).1 ▸ h
      · exact .pure (Adding.stable_stored hplaced) fun m h => ⟨job, true, rfl, fun _ => h⟩

end Enqueue

section Batch

open JobService

variable {cache : List ((Option ProjectId × String) × Queue)}

-- The jobs that are flushed, and the queues that are resolved.
def AllFlushed (jobs : List Job) (rows : ∀ k, Option (Row k)) : Prop :=
  ∀ job ∈ jobs, HasJob job rows

def Cached (m₀ : Db) (user : SessionUser) (cache : List ((Option ProjectId × String) × Queue))
    (rows : ∀ k, Option (Row k)) : Prop :=
  ∀ target q, (target, q) ∈ cache → Given m₀ user target.1 target.2 q rows

theorem upward_allFlushed (jobs : List Job) : Upward (AllFlushed jobs) :=
  .all fun job => (upward_hasJob job).imp

theorem upward_cached : Upward (Cached m₀ user cache) :=
  .all fun _ => .all fun q => (upward_given q).imp

-- What is staged is flushed, whole.
theorem places_flush (hP : Upward P) (jobs : List Job) (hchecks : ∀ job ∈ jobs, job.checks = true) :
    (firstUse cron m₀).Does c t P (flush t jobs) fun ok rows =>
      ok = true ∧ AllFlushed jobs rows ∧ P rows := by
  induction jobs generalizing P with
  | nil => exact Adding.does_pure hP fun rows h => ⟨rfl, fun _ hjob => absurd hjob (by simp), h⟩
  | cons job jobs ih =>
      rw [flush, if_pos (hchecks job List.mem_cons_self)]
      refine .bind Adding.sound (places_insertEntry hP job _ rfl) fun ok => ?_
      refine .assuming (fun m h => h.1) fun hok => ?_
      subst hok
      rw [if_pos rfl]
      refine ((ih ((upward_hasJob job).and hP) fun job hjob =>
        hchecks job (List.mem_cons_of_mem _ hjob)).pre fun m _ _ _ _ h => h.2).post fun ok m h => ?_
      obtain ⟨hok, hflushed, hjob, hp⟩ := h
      refine ⟨hok, fun job' hmem => ?_, hp⟩
      rcases List.mem_cons.mp hmem with rfl | hmem
      · exact hjob
      · exact hflushed job' hmem

theorem places_resolveTarget (hP : Upward P) (item : BatchItem) {p : Project}
    (hp : projectOf m₀ user item.data.projectId = some p)
    (hname : storableText item.data.queue = true) :
    (firstUse cron m₀).Does c t P (resolveTarget user item) fun r rows =>
      (∃ q, r = .ok q ∧ Given m₀ user item.data.projectId item.data.queue q rows) ∧ P rows := by
  refine .bind Adding.sound (places_resolveProject hP hp) fun r => ?_
  refine .assuming (fun m h => h.1) fun hr => ?_
  subst hr
  exact (places_resolveQueue hP hp hname item.queueId).pre fun m _ _ _ _ h => h.2

-- Each item has its job.
def AllPlaced (m₀ : Db) (user : SessionUser) (items : List BatchItem) (jobs : List Job)
    (rows : ∀ k, Option (Row k)) : Prop :=
  List.Forall₂ (fun item job => JobPlaced m₀ user item.data job rows) items jobs

theorem upward_allPlaced (items : List BatchItem) (jobs : List Job) :
    Upward (AllPlaced m₀ user items jobs) :=
  fun _ _ hext h => h.imp fun item job hjob => upward_jobPlaced item.data job _ _ hext hjob

structure Resolvable (m₀ : Db) (user : SessionUser) (item : BatchItem) : Prop where
  accepted : item.data.accepted = true
  stored : item.data.storable = true
  name : storableText item.data.queue = true
  project : ∃ p, projectOf m₀ user item.data.projectId = some p

-- What a batch has staged when it is through.
def AllStaged (m₀ : Db) (user : SessionUser) (items : List BatchItem) (staged : List Job)
    (r : Except PyError (List Job)) (rows : ∀ k, Option (Row k)) : Prop :=
  ∃ jobs, r = .ok jobs ∧ AllFlushed staged rows ∧ AllPlaced m₀ user items jobs rows

theorem upward_allStaged (items : List BatchItem) (staged : List Job)
    (r : Except PyError (List Job)) : Upward (AllStaged m₀ user items staged r) :=
  .exists fun jobs => (Upward.const _).and ((upward_allFlushed staged).and
    (upward_allPlaced items jobs))

-- The job of an item whose queue is known, and the rest of the batch after it.
theorem places_rest (hP : Upward P) (item : BatchItem) {items : List BatchItem} {job : Job}
    (staged : List Job) {p : Tx (Except PyError (List Job))}
    (hp : (firstUse cron m₀).Does c t
      (fun rows => Cached m₀ user cache rows ∧
        RefersTo m₀ user item.data.projectId item.data.queue job.queueId rows ∧ P rows) p
      fun r rows => AllStaged m₀ user items (staged ++ [job]) r rows ∧
        RefersTo m₀ user item.data.projectId item.data.queue job.queueId rows ∧ P rows) :
    (firstUse cron m₀).Does c t
      (fun rows => Cached m₀ user cache rows ∧
        RefersTo m₀ user item.data.projectId item.data.queue job.queueId rows ∧ P rows)
      (do
        let rest ← p
        return rest.map (job :: ·))
      fun r rows => AllStaged m₀ user (item :: items) staged r rows ∧ P rows := by
  refine .bind Adding.sound hp fun rest => ?_
  refine .pure (Adding.stable_view ((upward_allStaged items _ rest).and
    ((upward_refersTo _ _ _).and hP))) fun m h => ?_
  obtain ⟨⟨jobs, rfl, hflushed, hplaced⟩, hrefers, hrest⟩ := h
  refine ⟨⟨job :: jobs, rfl, fun job' hmem => ?_, ?_⟩, hrest⟩
  · exact hflushed job' (List.mem_append_left _ hmem)
  · have hjob : HasJob job (m.view t).row := hflushed job (by simp)
    exact .cons ⟨hjob, hrefers⟩ hplaced

theorem places_stageItems (hP : Upward P) (batchId : Nat) (now : Time) (items : List BatchItem)
    (staged : List Job) (hitems : ∀ item ∈ items, Resolvable m₀ user item)
    (hstaged : ∀ job ∈ staged, job.checks = true) :
    (firstUse cron m₀).Does c t (fun rows => Cached m₀ user cache rows ∧ P rows)
      (stageItems t user batchId now items cache staged true)
      fun r rows => AllStaged m₀ user items staged r rows ∧ P rows := by
  induction items generalizing cache staged P with
  | nil =>
      refine .bind Adding.sound ((places_flush hP staged hstaged).pre
        fun m _ _ _ _ h => h.2) fun ok => ?_
      refine .assuming (fun m h => h.1) fun hok => ?_
      subst hok
      exact .pure (Adding.stable_view ((Upward.const _).and ((upward_allFlushed staged).and hP)))
        fun m h => ⟨⟨[], rfl, h.2.1, .nil⟩, h.2.2⟩
  | cons item items ih =>
      obtain ⟨hdata, hstored, hname, project, hproject⟩ := hitems item List.mem_cons_self
      have hrest : ∀ item ∈ items, Resolvable m₀ user item :=
        fun item hitem => hitems item (List.mem_cons_of_mem _ hitem)
      have hjob : ∀ q : Queue, q.checks = true →
          (item.job user.id q batchId now).checks = true := fun q hq =>
        buildJob_checks item.jobId user.id none now hdata hq
      rw [stageItems, hstored]
      cases hlookup : cache.lookup item.target with
      | some q =>
          have hmem : (item.target, q) ∈ cache := by
            obtain ⟨newer, older, hcache, -⟩ := List.lookup_eq_some_iff.mp hlookup
            simp [hcache]
          refine .assuming (φ := q.checks = true) (fun m h => (h.1 _ q hmem).1) fun hchecks => ?_
          have hall : ∀ job ∈ staged ++ [item.job user.id q batchId now], job.checks = true := by
            intro job hmem
            rcases List.mem_append.mp hmem with hold | hnew
            · exact hstaged job hold
            · obtain rfl := List.mem_singleton.mp hnew
              exact hjob q hchecks
          refine (places_rest hP item staged (ih ((upward_refersTo _ _ _).and hP) _ hrest hall)).pre
            fun m _ _ _ _ h => ⟨h.1, ⟨q, rfl, (h.1 _ q hmem).2⟩, h.2⟩
      | none =>
          have hcached : Upward fun rows => Cached m₀ user cache rows ∧ P rows :=
            upward_cached.and hP
          refine .bind Adding.sound (places_flush hcached staged hstaged) fun ok => ?_
          refine .assuming (fun m h => h.1) fun hok => ?_
          subst hok
          rw [if_pos rfl]
          refine .bind Adding.sound ((places_resolveTarget ((upward_allFlushed staged).and hcached)
            item hproject hname).pre fun m _ _ _ _ h => h.2) fun r => ?_
          refine .assuming (φ := ∃ q, r = .ok q ∧ q.checks = true)
            (fun m h => h.1.imp fun q hq => ⟨hq.1, hq.2.1⟩) fun hr => ?_
          obtain ⟨q, rfl, hchecks⟩ := hr
          have hone : ∀ job ∈ [item.job user.id q batchId now], job.checks = true := by
            intro job hmem
            obtain rfl := List.mem_singleton.mp hmem
            exact hjob q hchecks
          refine ((places_rest ((upward_allFlushed staged).and hP) item [] (ih
            ((upward_refersTo _ _ _).and ((upward_allFlushed staged).and hP)) _ hrest hone)).pre
              fun m _ _ _ _ h => ?_).post fun r m h => ?_
          · obtain ⟨⟨q', hq', hgiven⟩, hflushed, hold, hp⟩ := h
            obtain rfl := Except.ok.inj hq'
            refine ⟨fun target q' hmem => ?_, ⟨q, rfl, hgiven.2⟩, hflushed, hp⟩
            rcases List.mem_cons.mp hmem with heq | hmem
            · obtain ⟨rfl, rfl⟩ := Prod.mk.inj heq
              exact hgiven
            · exact hold target q' hmem
          · obtain ⟨⟨jobs, hr, -, hplaced⟩, hflushed, hp⟩ := h
            exact ⟨⟨jobs, hr, hflushed, hplaced⟩, hp⟩

theorem places_enqueueBatch (items : List BatchItem) (batchId : Nat)
    (hitems : ∀ item ∈ items, Resolvable m₀ user item) :
    Triple (firstUse cron m₀).spec c t (fun _ => True) (enqueueBatch t user items batchId)
      fun r m => ∃ jobs, r = .ok (batchId, jobs) ∧ AllPlaced m₀ user items jobs m.stored := by
  refine .bind Adding.sound (Adding.triple_begin (Upward.const True)) fun now => ?_
  refine .bind Adding.sound ((places_stageItems (Upward.const True) batchId now items [] hitems
    (by simp)).pre fun m _ _ _ _ h => ⟨fun _ _ hmem => absurd hmem (by simp), h⟩) fun r => ?_
  refine .assuming (φ := ∃ jobs, r = .ok jobs) (fun m h => h.1.imp fun jobs hj => hj.1) fun hr => ?_
  obtain ⟨jobs, rfl⟩ := hr
  have hplaced : Upward (AllPlaced m₀ user items jobs) := upward_allPlaced items jobs
  refine .bind Adding.sound ((Adding.triple_commit hplaced).pre fun m _ _ _ _ h => ?_) fun _ => ?_
  · obtain ⟨⟨jobs', hjobs', -, h⟩, -⟩ := h
    exact Except.ok.inj hjobs' ▸ h
  · refine .bind Adding.sound (Adding.triple_rollback hplaced) fun _ => ?_
    exact .pure (Adding.stable_stored hplaced) fun m h => ⟨jobs, rfl, h⟩

end Batch

section Schedule

open ScheduleService

variable {validCron : String → Bool} {data : ScheduleCreate}

-- An accepted body passes the CHECK constraints.
theorem build_checks (hdata : data.accepted validCron = true) (id : ScheduleId) (ownerId : UserId)
    (queue : Queue) (nextRunAt now : Time) :
    (build id ownerId queue data nextRunAt now).checks = true := by
  simp only [ScheduleCreate.accepted, decide_eq_true_eq] at hdata
  obtain ⟨-, -, -, -, -, -, -, -, hpri, hpri', hmax, hmax', htime, htime', hbase, hbase', hfac,
    hfac', hceil, hceil'⟩ := hdata
  rw [Schedule.checks, decide_eq_true_eq]
  exact ⟨hmax, hmax', hpri, hpri', hbase, hbase', hfac, hfac', hceil, hceil', htime, htime'⟩

theorem places_createSchedule (hdata : data.accepted validCron = true)
    (hstored : data.storable = true) (hname : storableText data.queue = true) {p : Project}
    (hp : projectOf m₀ user data.projectId = some p) (hc : c.schedules = true)
    (hnext : ∀ now, (cron.next data.cronExpr now).isSome = true) (id : ScheduleId)
    (queueId : QueueId) :
    Triple (firstUse cron m₀).spec c t (fun _ => True) (create cron user data id queueId)
      fun r m => ∃ s, r = .ok s ∧ SchedulePlaced m₀ user data s m.stored := by
  have htrue : Upward fun _ : ∀ k, Option (Row k) => True := .const True
  have hstage (now : Time) : (firstUse cron m₀).Does c t (fun _ => True)
      (stage cron user data id queueId now)
      fun r rows => ∃ s, r = .ok s ∧ SchedulePlaced m₀ user data s rows := by
    refine .bind Adding.sound (places_resolveProject htrue hp) fun r => ?_
    refine .assuming (fun m h => h.1) fun hr => ?_
    subst hr
    refine .bind Adding.sound ((places_scheduleQueue htrue hp hname hc queueId).pre
      fun m _ _ _ _ h => h.2) fun r => ?_
    refine .assuming (φ := ∃ q, r = .ok q) (fun m h => h.1.imp fun q hq => hq.1) fun hr => ?_
    obtain ⟨q, rfl⟩ := hr
    obtain ⟨nextRunAt, hnext⟩ := Option.isSome_iff_exists.mp (hnext now)
    simp only [hnext, if_pos hstored, if_pos (build_checks hdata id user.id q nextRunAt now)]
    have hqueue : Upward (QueueFor m₀ user data.projectId data.queue q) := upward_queueFor _ _ q
    refine .bind Adding.sound ((Adding.triple_insert (Q := fun ok rows => ok = true ∧
      SchedulePlaced m₀ user data (build id user.id q data nextRunAt now) rows) hqueue
      (fun ok => (Upward.const _).and (upward_schedulePlaced data _)) (fun m hat h hclash _ => ?_)
      (fun m hat _ _ _ => ?_) fun rows h hrow => ?_).pre fun m _ _ _ _ h => ?_) fun ok => ?_
    · obtain ⟨k, -, hk⟩ := List.any_eq_true.mp hclash
      simp at hk
    · exact hat.inv.insert_other (by simp) (by simp)
    · exact ⟨rfl, ⟨_, hrow, rfl⟩, q, rfl, h⟩
    · obtain ⟨⟨q', hq', hgiven⟩, -⟩ := h
      exact Except.ok.inj hq' ▸ hgiven.2
    · refine .assuming (fun m h => h.1) fun hok => ?_
      subst hok
      exact .pure (Adding.stable_view ((Upward.const _).and (upward_schedulePlaced data _)))
        fun m h => ⟨_, rfl, h.2⟩
  refine .bind Adding.sound (Adding.triple_begin htrue) fun now => ?_
  refine .bind Adding.sound (hstage now) fun r => ?_
  refine .assuming (φ := ∃ s, r = .ok s) (fun m h => h.imp fun s hs => hs.1) fun hr => ?_
  obtain ⟨s, rfl⟩ := hr
  have hplaced : Upward (SchedulePlaced m₀ user data s) := upward_schedulePlaced data s
  refine .bind Adding.sound ((Adding.triple_commit hplaced).pre fun m _ _ _ _ h => ?_) fun _ => ?_
  · obtain ⟨s', hs', h⟩ := h
    exact Except.ok.inj hs' ▸ h
  · refine .bind Adding.sound (Adding.triple_rollback hplaced) fun _ => ?_
    exact .pure (Adding.stable_stored hplaced) fun m h => ⟨s, rfl, h⟩

end Schedule

end Chronos
