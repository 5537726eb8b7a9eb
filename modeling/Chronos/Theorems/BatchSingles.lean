import Chronos.Theorems.BatchContract

namespace Chronos

open Txn (TxId Runs Sees Settled Solo Prog)
open JobService

variable {t : TxId} {user : SessionUser} {v₀ v : Snapshot} {now : Time}
  {items before : List BatchItem} {item : BatchItem}

-- An item enqueued on its own: its transaction and the workflow id it may be given.
structure Single where
  tx : TxId
  workflow : Nat
  item : BatchItem

def Single.body (user : SessionUser) (s : Single) : Tx (Except PyError (Job × Bool)) :=
  enqueue s.tx user s.item.data ⟨s.item.jobId, s.item.queueId, s.workflow⟩

-- Calls of enqueue one after the other.
def enqueueAll (user : SessionUser) : List Single → Db → Option (List (Except PyError (Job × Bool)) × Db)
  | [], m => some ([], m)
  | s :: rest, m =>
      ((s.body user).run s.tx m).bind fun (r, m') =>
        (enqueueAll user rest m').map fun (results, m'') => (r :: results, m'')

def IsNew (r : Except PyError (Job × Bool)) : Prop := ∃ job, r = .ok (job, true)

section Enqueue

theorem solo_trivial {α : Type} (p : Tx α) {P : Db → Prop} : Solo t P p fun _ _ => True :=
  fun _ _ _ _ _ => trivial

theorem solo_recover (data : JobCreate) {P : Db → Prop} :
    Solo t P (recover user data) fun r _ => ¬ IsNew r := by
  refine .bind (solo_trivial _) fun _ => ?_
  cases truthyKey data with
  | none =>
      refine .pure fun m _ h => ?_
      obtain ⟨job, hjob⟩ := h
      cases hjob
  | some key =>
      dsimp only
      split
      · refine .pure fun m _ h => ?_
        obtain ⟨job, hjob⟩ := h
        cases hjob
      · refine .bind (solo_trivial _) fun found => ?_
        cases found <;>
        · refine .pure fun m _ h => ?_
          obtain ⟨job, hjob⟩ := h
          cases hjob

theorem solo_checkDependencies (ownerId : UserId) (deps : List JobId) (workflowId : Option Nat) :
    Solo t (Sees t v now) (checkDependencies ownerId deps workflowId) fun r m =>
      ∀ w, r = .ok w → Sees t v now m ∧ (deps = [] → w = workflowId) := by
  induction deps generalizing workflowId with
  | nil => exact .pure fun m h w hw => ⟨h, fun _ => (Except.ok.inj hw).symm⟩
  | cons dep deps ih =>
      refine .bind (Runs.select _).solo fun found => .given fun _ => ?_
      cases found with
      | none => exact .pure fun m _ w hw => by cases hw
      | some job =>
          refine (ih (job.workflowId <|> workflowId)).post fun r m h w hw => ?_
          exact ⟨(h w hw).1, fun hnil => by cases hnil⟩

theorem solo_insertJob (job : Job) (dependsOn : List JobId) (hnew : .job job.id ∉ v.keys) :
    Solo t (Sees t v now) (insertJob t job dependsOn) fun ok m => ok = true →
      Settled (v.with (.job job.id) (newRow t job dependsOn)) now m ∧
        ∀ key, job.idempotencyKey = some key → ¬ Keyed v job.ownerId key := by
  intro m₀ ok m' hsees hrun
  rw [insertJob] at hrun
  split at hrun
  swap
  · obtain ⟨rfl, rfl⟩ := Prod.mk.inj (Option.some.inj hrun)
    simp
  have hclash := clashes_job hsees job
  rw [Prog.bind_eq, Prog.run_bind, Prog.run_stmt, hsees.exec_insert _ _ hnew] at hrun
  cases hc : v.clashes (uqJobsOwnerIdempotency job) with
  | true =>
      rw [hc] at hrun
      simp only [if_true, Option.bind_some] at hrun
      obtain ⟨rfl, rfl⟩ := Prod.mk.inj (Option.some.inj hrun)
      simp
  | false =>
      rw [hc] at hrun
      simp only [Bool.false_eq_true, if_false, Option.bind_some, if_true] at hrun
      split at hrun
      swap
      · obtain ⟨rfl, rfl⟩ := Prod.mk.inj (Option.some.inj hrun)
        simp
      have hinserted := hsees.insert (newRow t job []) hnew
      refine fun hok => ⟨?_, fun key hkey hkeyed => ?_⟩
      · let row : JobEntry := { job := job, attempts := [], dependsOn := [], log := [.created t] }
        have hpending : ((m₀.insert t (.job job.id) row).cell (.job job.id)).pending =
            some (t, row) := by simp
        simp only [Prog.bind_eq, Prog.run_bind, Prog.run_stmt, Txn.exec, hpending, if_true,
          Option.bind_some, Prog.run, Option.some.injEq, Prod.mk.injEq, Prog.pure_eq, row] at hrun
        obtain ⟨-, rfl⟩ := hrun
        exact (sees_own_again hinserted _).commit
      · have := hclash.mpr ⟨key, hkey, hkeyed⟩
        rw [hc] at this
        cases this

theorem not_isNew_of_error {err : PyError} : ¬ IsNew (.error err) := by
  rintro ⟨job, hjob⟩
  cases hjob

-- What an accepted call leaves besides its job: the queue of the item.
structure QueueFound (user : SessionUser) (v₀ v : Snapshot)
    (before : List BatchItem) (item : BatchItem) (p : Project) (q : Queue)
    (workflowId : Option Nat) (w : Snapshot) : Prop where
  stored : Stored item
  named : namedQueue user v₀ (before ++ [item]) p.id item.data.queue = some q
  resolved : Resolved user v₀ (before ++ [item]) w
  grown : w = v ∨ ∃ q', w = v.with (.queue item.queueId) q'
  workflow : item.data.dependsOn = [] → workflowId = none
  free : ∀ key, item.data.idempotencyKey = some key → ¬ Keyed v user.id key

-- The job that enqueue makes of an item.
abbrev singleJob (user : SessionUser) (item : BatchItem) (q : Queue) (workflowId : Option Nat)
    (now : Time) : Job :=
  buildJob item.jobId user.id q item.data workflowId now

def AfterSingle (t : TxId) (user : SessionUser) (v₀ v : Snapshot) (now : Time)
    (before : List BatchItem) (item : BatchItem) (p : Project)
    (r : Except PyError (Job × Bool)) (m : Db) : Prop :=
  IsNew r → ∃ q workflowId w, QueueFound user v₀ v before item p q workflowId w ∧
    Settled (w.with (.job item.jobId)
      (newRow t (singleJob user item q workflowId now) item.data.dependsOn)) now m

theorem solo_create (hres : Resolved user v₀ before v) {p : Project}
    (hp : projectFor user item.data.projectId v₀ = some p)
    (hqueue : .queue item.queueId ∉ v.keys) (hjob : .job item.jobId ∉ v.keys) (workflow : Nat) :
    Solo t (Sees t v now)
      (create t user item.data ⟨item.jobId, item.queueId, workflow⟩ now)
      (AfterSingle t user v₀ v now before item p) := by
  refine .bind (runs_resolveProject ((hres.project _).trans hp)).solo fun r => .given fun hr => ?_
  subst hr
  by_cases hname : storableText item.data.queue = true
  swap
  · simp only [resolveQueue, if_neg hname]
    exact .pure fun m _ h => absurd h not_isNew_of_error
  refine .bind (runs_resolveQueue hres hp hname hqueue).solo fun r => ?_
  intro m r' m' hfound hrun
  obtain ⟨q, w, rfl, hsees, hresolved, hnamed, hgrown⟩ := hfound
  have hkeyed : ∀ key, Keyed w user.id key ↔ Keyed v user.id key := by
    intro key
    rcases hgrown with rfl | ⟨q', rfl⟩
    · exact Iff.rfl
    · exact keyed_with_queue ..
  have hjob' : .job item.jobId ∉ w.keys := by
    rcases hgrown with rfl | ⟨q', rfl⟩
    · exact hjob
    · rw [Txn.View.mem_insert_keys, not_or]
      exact ⟨hjob, by simp⟩
  refine Solo.bind (R := AfterSingle t user v₀ v now before item p)
    (solo_checkDependencies user.id item.data.dependsOn _) (fun r => ?_) m r' m' hsees hrun
  cases r with
  | error err => exact .pure fun m _ h => absurd h not_isNew_of_error
  | ok workflowId =>
      by_cases hstored : item.data.storable = true
      swap
      · simp only [if_neg hstored]
        exact .pure fun m _ h => absurd h not_isNew_of_error
      simp only [if_pos hstored]
      let job := singleJob user item q workflowId now
      have hinsert : Solo t (Sees t w now) (insertJob t job item.data.dependsOn) fun ok m =>
          ok = true → Settled (Snapshot.with w (.job job.id) (newRow t job item.data.dependsOn)) now m ∧
            ∀ key, job.idempotencyKey = some key → ¬ Keyed w job.ownerId key :=
        solo_insertJob job item.data.dependsOn hjob'
      intro m r m' hchecked hrun
      obtain ⟨hsees, hworkflow⟩ := hchecked workflowId rfl
      refine Solo.bind (R := AfterSingle t user v₀ v now before item p) hinsert (fun ok => ?_)
        m r m' hsees hrun
      cases ok with
      | true =>
          refine .pure fun m h _ => ?_
          obtain ⟨hsettled, hfree⟩ := h rfl
          refine ⟨q, workflowId, w, ⟨⟨hstored, hname⟩, hnamed, hresolved, hgrown, fun hnil => ?_, ?_⟩,
            hsettled⟩
          · simpa [hnil] using hworkflow hnil
          · exact fun key hkey hold => hfree key hkey ((hkeyed key).mpr hold)
      | false => exact (solo_recover item.data).post fun r m hr h => absurd h hr

theorem solo_enqueue (hres : Resolved user v₀ before v) {p : Project}
    (hp : projectFor user item.data.projectId v₀ = some p)
    (hqueue : .queue item.queueId ∉ v.keys) (hjob : .job item.jobId ∉ v.keys) (workflow : Nat) :
    Solo t (Settled v now)
      (enqueue t user item.data ⟨item.jobId, item.queueId, workflow⟩)
      (AfterSingle t user v₀ v now before item p) := by
  suffices hsees : Solo t (Sees t v now)
      (enqueue t user item.data ⟨item.jobId, item.queueId, workflow⟩)
      (AfterSingle t user v₀ v now before item p) from hsees.pre fun m h => h.sees t
  refine .bind Runs.begin.solo fun now' => .given fun hnow => ?_
  subst hnow
  have hcheck : Solo t (Sees t v now') (preCheck user item.data) fun found m =>
      found = .ok none → Sees t v now' m := by
    unfold preCheck
    cases truthyKey item.data with
    | none => exact .pure fun m h _ => h
    | some key =>
        dsimp only
        split
        · exact .bind (Runs.select _).solo fun existing => .pure fun m h _ => h.2
        · exact .pure fun m _ h => nomatch h
  refine .bind hcheck fun found => ?_
  rcases found with err | (_ | job)
  · exact .bind (solo_trivial _) fun _ => .pure fun m _ h => absurd h not_isNew_of_error
  swap
  · refine .bind (solo_trivial _) fun _ => .pure fun m _ h => ?_
    obtain ⟨job', hjob'⟩ := h
    cases hjob'
  · intro m r m' h hrun
    refine Solo.bind (R := AfterSingle t user v₀ v now' before item p)
      (solo_create hres hp hqueue hjob workflow) (fun r => ?_) m r m' (h rfl) hrun
    intro m r' m' h hrun
    rw [Prog.bind_eq, Prog.run_bind, Prog.run_stmt] at hrun
    obtain ⟨rfl, rfl⟩ := Prod.mk.inj (Option.some.inj hrun)
    intro hnew
    obtain ⟨q, workflowId, w, hqueued, hsettled⟩ := h hnew
    exact ⟨q, workflowId, w, hqueued, (hsettled.rollback_eq t).symm ▸ hsettled⟩

end Enqueue

-- How far a sequence of accepted calls has come.
structure Served (user : SessionUser) (v₀ : Snapshot) (now : Time) (items before : List BatchItem)
    (v : Snapshot) : Prop where
  resolved : Resolved user v₀ before v
  stored : ∀ d ∈ before, Stored d
  keyed : ∀ key, Keyed v user.id key ↔
    Keyed v₀ user.id key ∨ ∃ d ∈ before, d.data.idempotencyKey = some key
  clean : ¬ HasCollision v₀ user.id before
  keys : ∀ k ∈ v.keys, k ∈ v₀.keys ∨ (∃ d ∈ before, k = .job d.jobId) ∨
    ∃ d ∈ before, k = .queue d.queueId
  rows : ∀ d ∈ before, ∃ t q workflowId, queueFor user v₀ items d = some q ∧
    (d.data.dependsOn = [] → workflowId = none) ∧
    v.job d.jobId = some (newRow t (singleJob user d q workflowId now) d.data.dependsOn)

theorem Served.start : Served user v₀ now items [] v₀ where
  resolved := .refl
  stored d hd := by simp at hd
  keyed key := by simp
  clean := by
    rintro ⟨a, d, b, h, -⟩
    simp at h
  keys k hk := .inl hk
  rows d hd := by simp at hd

-- One more accepted call.
theorem Served.step {rest : List BatchItem} {p : Project} {q : Queue} {workflowId : Option Nat}
    {w : Snapshot} (h : Served user v₀ now items before v) (hitems : items = before ++ item :: rest)
    (hok : Acceptable user v₀ items) (hp : projectFor user item.data.projectId v₀ = some p)
    (hfound : QueueFound user v₀ v before item p q workflowId w) (hnew : w.job item.jobId = none) :
    Served user v₀ now items (before ++ [item]) (w.with (.job item.jobId)
      (newRow t (singleJob user item q workflowId now) item.data.dependsOn)) := by
  have hkeyed : ∀ key, Keyed w user.id key ↔ Keyed v user.id key := by
    intro key
    rcases hfound.grown with rfl | ⟨q', rfl⟩
    · exact Iff.rfl
    · exact keyed_with_queue ..
  have hrow : ∀ id, w.job id = v.job id := by
    intro id
    rcases hfound.grown with rfl | ⟨q', rfl⟩
    · rfl
    · exact with_row_ne v (.queue item.queueId) (.job id) q' (by simp)
  constructor
  · exact hfound.resolved.with_job item.jobId _
  · intro d hd
    rcases List.mem_append.mp hd with hd | hd
    · exact h.stored d hd
    · exact List.mem_singleton.mp hd ▸ hfound.stored
  · intro key
    rw [keyed_with_job hnew, hkeyed, h.keyed]
    simp [newRow, buildJob, or_and_right, exists_or, or_assoc]
  · rintro ⟨a, d, b, heq, key, hkey, htaken⟩
    rcases split_append heq with ⟨mid, hold⟩ | ⟨mid, rfl, hlast⟩
    · exact h.clean ⟨a, d, mid, hold, key, hkey, htaken⟩
    · cases mid with
      | nil =>
          obtain ⟨rfl, -⟩ := List.cons.inj hlast
          rw [List.append_nil] at htaken
          exact hfound.free key hkey ((h.keyed key).mpr htaken)
      | cons first mid => simp at hlast
  · intro k hk
    rw [Txn.View.mem_insert_keys] at hk
    have hold : k ∈ v.keys ∨ k = .queue item.queueId ∨ k = .job item.jobId := by
      rcases hk with hk | rfl
      · rcases hfound.grown with rfl | ⟨q', rfl⟩
        · exact .inl hk
        · rw [Txn.View.mem_insert_keys] at hk
          exact hk.imp_right .inl
      · exact .inr (.inr rfl)
    rcases hold with hk | rfl | rfl
    · rcases h.keys k hk with hold | ⟨d, hd, rfl⟩ | ⟨d, hd, rfl⟩
      · exact .inl hold
      · exact .inr (.inl ⟨d, List.mem_append_left _ hd, rfl⟩)
      · exact .inr (.inr ⟨d, List.mem_append_left _ hd, rfl⟩)
    · exact .inr (.inr ⟨item, by simp, rfl⟩)
    · exact .inr (.inl ⟨item, by simp, rfl⟩)
  · intro d hd
    rcases List.mem_append.mp hd with hd | hd
    · obtain ⟨t', q', workflowId', hq', hworkflow', hjob'⟩ := h.rows d hd
      have hne : d.jobId ≠ item.jobId := by
        have hdistinct := hok.distinctJobs
        rw [hitems, List.map_append, List.map_cons] at hdistinct
        exact fun he => List.disjoint_of_nodup_append hdistinct (List.mem_map_of_mem hd)
          (he ▸ List.mem_cons_self)
      refine ⟨t', q', workflowId', hq', hworkflow', ?_⟩
      rw [Snapshot.job, with_row_ne w (.job item.jobId) (.job d.jobId) _ (by simpa using hne)]
      exact (hrow d.jobId).trans hjob'
    · obtain rfl := List.mem_singleton.mp hd
      refine ⟨t, q, workflowId, ?_, hfound.workflow, Txn.View.insert_row_self _ _ _⟩
      exact queueFor_of_named hp rest (by rw [hitems]; simp) hfound.named

-- What is left by a sequence of calls that are all accepted.
theorem served_enqueueAll (hok : Acceptable user v₀ items) (singles : List Single)
    (hitems : items = before ++ singles.map Single.item) (h : Served user v₀ now items before v)
    {m m' : Db} (hm : Settled v now m) {results : List (Except PyError (Job × Bool))}
    (hrun : enqueueAll user singles m = some (results, m')) (hnew : ∀ r ∈ results, IsNew r) :
    ∃ w, Settled w now m' ∧ Served user v₀ now items items w := by
  induction singles generalizing before v m results with
  | nil =>
      simp only [enqueueAll, Option.some.injEq, Prod.mk.injEq] at hrun
      obtain ⟨-, rfl⟩ := hrun
      rw [List.map_nil, List.append_nil] at hitems
      exact ⟨v, hm, hitems ▸ h⟩
  | cons s singles ih =>
      rw [enqueueAll, Option.bind_eq_some_iff] at hrun
      obtain ⟨⟨r, m₁⟩, hfirst, hrest⟩ := hrun
      rw [Option.map_eq_some_iff] at hrest
      obtain ⟨⟨rs, m₂⟩, hrest, heq⟩ := hrest
      obtain ⟨rfl, rfl⟩ := Prod.mk.inj heq
      rw [List.map_cons] at hitems
      have hmem : s.item ∈ items := by rw [hitems]; simp
      obtain ⟨p, hp⟩ := Option.ne_none_iff_exists'.mp (hok.projects s.item hmem)
      have hqueue : .queue s.item.queueId ∉ v.keys := by
        intro hkey
        rcases h.keys _ hkey with hold | ⟨d, -, heq⟩ | ⟨d, hd, heq⟩
        · exact hok.freshQueues s.item hmem hold
        · cases heq
        · have hdistinct := hok.distinctQueues
          rw [hitems, List.map_append, List.map_cons] at hdistinct
          exact List.disjoint_of_nodup_append hdistinct (List.mem_map_of_mem hd)
            (Key.queue.inj heq ▸ List.mem_cons_self)
      have hjob : .job s.item.jobId ∉ v.keys := by
        intro hkey
        rcases h.keys _ hkey with hold | ⟨d, hd, heq⟩ | ⟨d, -, heq⟩
        · exact hok.freshJobs s.item hmem hold
        · have hdistinct := hok.distinctJobs
          rw [hitems, List.map_append, List.map_cons] at hdistinct
          exact List.disjoint_of_nodup_append hdistinct (List.mem_map_of_mem hd)
            (Key.job.inj heq ▸ List.mem_cons_self)
        · cases heq
      obtain ⟨q, workflowId, w, hfound, hsettled⟩ :=
        solo_enqueue (t := s.tx) h.resolved hp hqueue hjob s.workflow m r m₁ hm hfirst
          (hnew r List.mem_cons_self)
      have habsent : w.job s.item.jobId = none := by
        rcases hfound.grown with rfl | ⟨q', rfl⟩
        · exact not_mem_keys (hm.sees s.tx) hjob
        · rw [Snapshot.job, with_row_ne v (.queue s.item.queueId) (.job s.item.jobId) q' (by simp)]
          exact not_mem_keys (hm.sees s.tx) hjob
      exact ih (by rw [hitems]; simp) (h.step hitems hok hp hfound habsent) hsettled hrest
        fun r hr => hnew r (List.mem_cons_of_mem _ hr)

-- The job of a batch and the job of a call of its own: the same but for the batch.
def Agree (batchId : Nat) (batched single : Option JobEntry) : Prop :=
  ∃ e e', batched = some e ∧ single = some e' ∧ e.job = { e'.job with batchId := some batchId } ∧
    e.attempts = e'.attempts ∧ e.dependsOn = e'.dependsOn

-- Items that enqueue accepts one after the other: enqueue_batch accepts them too, and makes the
-- same jobs of them exactly if none of them has dependencies.
theorem batch_equals_singles (user : SessionUser) (singles : List Single) (t : TxId)
    (batchId : Nat) {v₀ : Snapshot} {now : Time} {m m' : Db}
    {results : List (Except PyError (Job × Bool))} (hm : Settled v₀ now m)
    (hok : Acceptable user v₀ (singles.map Single.item))
    (hrun : enqueueAll user singles m = some (results, m')) (hnew : ∀ r ∈ results, IsNew r) :
    ∃ jobs m'', (enqueueBatch t user (singles.map Single.item) batchId).run t m =
        some (.ok (batchId, jobs), m'') ∧
      ((∀ s ∈ singles, Agree batchId (committedJob m'' s.item.jobId)
          (committedJob m' s.item.jobId)) ↔
        ∀ s ∈ singles, s.item.data.dependsOn = []) := by
  obtain ⟨w, hw, hserved⟩ := served_enqueueAll hok singles rfl .start hm hrun hnew
  have hruns : Runs t (Settled v₀ now) (enqueueBatch t user (singles.map Single.item) batchId)
      (BatchResult t user v₀ batchId now (singles.map Single.item)) :=
    runs_enqueueBatch hok hserved.stored
  obtain ⟨r, m'', hbatch, hresult⟩ := hruns m hm
  cases hresult with
  | conflict m'' hcollision hlate => exact absurd hcollision hserved.clean
  | integrity m'' hlate => exact absurd hlate.hasCollision hserved.clean
  | created jobs w' m'' hw' hclean hjobs hrows =>
      refine ⟨jobs, m'', hbatch, ?_⟩
      have hboth : ∀ s ∈ singles, ∃ q t' workflowId,
          (s.item.data.dependsOn = [] → workflowId = none) ∧
          committedJob m'' s.item.jobId =
            some (newRow t (s.item.job user.id q batchId now) []) ∧
          committedJob m' s.item.jobId = some (newRow t' (singleJob user s.item q workflowId now)
            s.item.data.dependsOn) := by
        intro s hs
        have hmem : s.item ∈ singles.map Single.item := List.mem_map_of_mem hs
        obtain ⟨job, ⟨q, hq, rfl⟩, hrow⟩ := hrows s.item hmem
        obtain ⟨t', q', workflowId, hq', hworkflow, hrow'⟩ := hserved.rows s.item hmem
        obtain rfl : q' = q := Option.some.inj (hq'.symm.trans hq)
        exact ⟨q', t', workflowId, hworkflow, (hw'.committed _).trans hrow,
          (hw.committed _).trans hrow'⟩
      constructor
      · intro hagree s hs
        obtain ⟨q, t', workflowId, -, hb, hs'⟩ := hboth s hs
        obtain ⟨e, e', he, he', -, -, hdeps⟩ := hagree s hs
        rw [hb, Option.some.injEq] at he
        rw [hs', Option.some.injEq] at he'
        subst he he'
        exact hdeps.symm
      · intro hnil s hs
        obtain ⟨q, t', workflowId, hworkflow, hb, hs'⟩ := hboth s hs
        obtain rfl := hworkflow (hnil s hs)
        exact ⟨_, _, hb, hs', rfl, rfl, (hnil s hs).symm⟩

def exampleSingles : List Single :=
  [⟨1, 0, exampleItem (some "order-1") "default" 1⟩, ⟨2, 0, exampleItem none "reports" 2⟩]

theorem exampleSingles_acceptable :
    Acceptable exampleUser (committedView exampleDb) (exampleSingles.map Single.item) where
  projects := by decide +kernel
  bodies := by decide +kernel
  queues id q h := by cases h
  freshJobs := by decide +kernel
  freshQueues := by decide +kernel
  distinctJobs := by decide +kernel
  distinctQueues := by decide +kernel

theorem batch_equals_singles_independent : ∃ results m' jobs m'',
    enqueueAll exampleUser exampleSingles exampleDb = some (results, m') ∧
    (enqueueBatch 3 exampleUser (exampleSingles.map Single.item) 9).run 3 exampleDb =
        some (.ok (9, jobs), m'') ∧
      ((∀ s ∈ exampleSingles, Agree 9 (committedJob m'' s.item.jobId)
          (committedJob m' s.item.jobId)) ↔
        ∀ s ∈ exampleSingles, s.item.data.dependsOn = []) := by
  have hall : (enqueueAll exampleUser exampleSingles exampleDb).any (fun r => r.1.all fun r =>
      match r with
      | .ok (_, new) => new
      | .error _ => false) = true := by decide +kernel
  obtain ⟨⟨results, m'⟩, hrun, hresults⟩ := (Option.any_eq_true _ _).mp hall
  have hnew : ∀ r ∈ results, IsNew r := by
    intro r hr
    have h := List.all_eq_true.mp hresults r hr
    cases r with
    | error err => cases h
    | ok res =>
        obtain ⟨job, new⟩ := res
        exact ⟨job, by rw [show new = true from h]⟩
  obtain ⟨jobs, m'', h⟩ := batch_equals_singles exampleUser exampleSingles 3 9
    (settled_committedView exampleDb_initial.wf exampleDb_initial.unlocked)
    exampleSingles_acceptable hrun hnew
  exact ⟨results, m', jobs, m'', hrun, h⟩

-- An item that depends on job 7: batched, it has lost its dependency.
def dependentItem : BatchItem := ⟨exampleBody none [7], 17, 18⟩

theorem batch_drops_dependencies :
    ((enqueueAll exampleUser [⟨3, 0, dependentItem⟩] (stateAfter createdEvents).mem).bind
        fun r => (committedJob r.2 17).map JobEntry.dependsOn) = some [7] ∧
      (((enqueueBatch 4 exampleUser [dependentItem] 9).run 4 (stateAfter createdEvents).mem).bind
        fun r => (committedJob r.2 17).map JobEntry.dependsOn) = some [] := by
  decide +kernel

end Chronos
