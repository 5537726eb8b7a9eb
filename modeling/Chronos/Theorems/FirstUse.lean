import Chronos.Cron.Runs
import Chronos.Refinement.QueueCreation
import Chronos.Txn.Progress

namespace Chronos

open Txn (TxId Upward Triple Adding Reaches WaitsFor)

-- A database at rest: what the keys, the CHECK constraints and the index on names promise.
structure Resting (m : Db) : Prop where
  wf : m.WF
  unlocked : ∀ k, (m.cell k).pending = none
  checks : ∀ id q, committedQueue m id = some q → q.checks = true ∧ q.id = id
  names : ∀ i j q q', committedQueue m i = some q → committedQueue m j = some q' →
    q.SameName q' → i = j

-- The calls are valid, and no job collides with another's idempotency key.
structure Undisturbed (cron : CronClock) (m₀ : Db) (s : FirstUseState) (ev : FirstUseEvent) :
    Prop where
  start : ∀ t c, ev = .start t c → c.Valid cron m₀ s.mem
  run : ∀ t c {β : Type} (st : Txn.Stmt Key Row Time β) next, ev = .run t →
    s.thread t = some ⟨c, some (.op st next)⟩ → jobClash t s.mem st = false

-- The INSERT of a queue by a schedule's call finds the name free.
def NameFree (s : FirstUseState) (ev : FirstUseEvent) : Prop :=
  ∀ t c {β : Type} (st : Txn.Stmt Key Row Time β) next, ev = .run t →
    s.thread t = some ⟨c, some (.op st next)⟩ → c.schedules = true → queueClash t s.mem st = false

-- Calls wait for each other's uncommitted rows in a circle. Postgres ends that with an error for
-- one of them.
def Circular (s : FirstUseState) : Prop := ∃ t, Relation.TransGen (WaitsFor s) t t

-- No name has two queues, and whoever has returned has its rows, all of them, with the queue. As
-- long as a call has not returned some call can go on, and they cannot go on for ever.
structure FirstUsed (cron : CronClock) (validCron : String → Bool) (m₀ : Db) (s : FirstUseState) :
    Prop where
  unique : ∀ i j q q', committedQueue s.mem i = some q → committedQueue s.mem j = some q' →
    q.SameName q' → i = j
  succeeds : ∀ t c v, s.thread t = some ⟨c, some (.pure v)⟩ → c.Succeeds m₀ s.mem.stored v
  goes_on : ∀ t, s.Busy t → ∃ u s', (firstUseSystem cron validCron).step s (.run u) = some s'
  ends : Acc (fun s₂ s₁ => ∃ t, (firstUseSystem cron validCron).step s₁ (.run t) = some s₂) s

section Calls

variable {cron : CronClock} {validCron : String → Bool} {m₀ m : Db} {c : FirstUseCall} {t : TxId}

theorem places_call (haccepted : c.accepted validCron = true) (hvalid : c.Valid cron m₀ m) :
    Triple (firstUse cron m₀).spec c t (fun m' => m'.stored = m.stored) (c.body cron t)
      fun v m' => c.Succeeds m₀ m'.stored v := by
  cases c with
  | enqueue user data ids =>
      obtain ⟨hstorable, hnodup, hdeps⟩ := hvalid
      obtain ⟨p, hp⟩ := Option.isSome_iff_exists.mp hstorable.project
      have howned : Upward fun rows => ∀ d ∈ data.dependsOn, Owned user.id d rows :=
        .all fun d => (upward_owned user.id d).imp
      refine .bind Adding.sound ((places_enqueue haccepted hstorable.values
        hstorable.name hp hnodup ids).pre
        fun m' _ hinv _ _ h => ?_) fun r => ?_
      · exact howned _ _ (hinv.2.extends_view t) (h ▸ hdeps)
      · refine .assuming (φ := ∃ job created, r = .ok (job, created))
          (fun m h => h.imp fun _ h => h.imp fun _ h => h.1) fun hr => ?_
        obtain ⟨job, created, rfl⟩ := hr
        have hplaced : Upward fun rows => created = true → JobPlaced m₀ user data job rows :=
          (upward_jobPlaced data job).imp
        refine Triple.pre (.pure (Adding.stable_stored hplaced) fun m h => h)
          fun m _ _ _ _ h => ?_
        obtain ⟨job', created', heq, h⟩ := h
        obtain ⟨rfl, rfl⟩ := Prod.mk.inj (Except.ok.inj heq)
        exact h
  | enqueueBatch user items batchId =>
      have hitems : ∀ item ∈ items, Resolvable m₀ user item := by
        intro item hitem
        obtain ⟨hstored, hname, hproject⟩ := hvalid item hitem
        exact ⟨List.all_eq_true.mp haccepted item hitem, hstored, hname,
          Option.isSome_iff_exists.mp hproject⟩
      refine .bind Adding.sound ((places_enqueueBatch items batchId hitems).pre
        fun m' _ _ _ _ h => trivial) fun r => ?_
      refine .assuming (φ := ∃ jobs, r = .ok (batchId, jobs)) (fun m h => h.imp fun _ h => h.1)
        fun hr => ?_
      obtain ⟨jobs, rfl⟩ := hr
      refine Triple.pre (.pure (Adding.stable_stored (upward_allPlaced items jobs)) fun m h => h)
        fun m _ _ _ _ h => ?_
      obtain ⟨jobs', heq, h⟩ := h
      obtain ⟨-, rfl⟩ := Prod.mk.inj (Except.ok.inj heq)
      exact h
  | createSchedule user data id queueId =>
      obtain ⟨hstorable, hnext⟩ := hvalid
      obtain ⟨p, hp⟩ := Option.isSome_iff_exists.mp hstorable.project
      refine .bind Adding.sound ((places_createSchedule haccepted hstorable.values hstorable.name
        hp rfl hnext id queueId).pre fun m' _ _ _ _ h => trivial) fun r => ?_
      refine .assuming (φ := ∃ s, r = .ok s) (fun m h => h.imp fun _ h => h.1) fun hr => ?_
      obtain ⟨s, rfl⟩ := hr
      refine Triple.pre (.pure (Adding.stable_stored (upward_schedulePlaced data s)) fun m h => h)
        fun m _ _ _ _ h => ?_
      obtain ⟨s', heq, h⟩ := h
      exact Except.ok.inj heq ▸ h

theorem lastReleases_enqueue (user : SessionUser) (data : JobCreate) (ids : FreshIds) :
    (JobService.enqueue t user data ids).LastReleases false := by
  refine .bind fun now released => .bind fun found released => ?_
  rcases found with err | (_ | job)
  · exact .rollback _
  · exact .bind fun r released => .rollback r
  · exact .rollback _

theorem lastReleases_enqueueBatch (user : SessionUser) (items : List JobService.BatchItem)
    (batchId : Nat) : (JobService.enqueueBatch t user items batchId).LastReleases false := by
  refine .bind fun now released => .bind fun r released => ?_
  cases r with
  | ok jobs => exact .bind fun _ _ => .rollback _
  | error err => exact .rollback _

theorem lastReleases_createSchedule (user : SessionUser) (data : ScheduleCreate) (id : ScheduleId)
    (queueId : QueueId) : (ScheduleService.create cron user data id queueId).LastReleases false := by
  refine .bind fun now released => .bind fun r released => ?_
  cases r with
  | ok s => exact .bind fun _ _ => .rollback _
  | error err => exact .rollback _

theorem lastReleases_body : (c.body cron t).LastReleases false := by
  cases c with
  | enqueue user data ids => exact (lastReleases_enqueue user data ids).map FirstUseValue.enqueued
  | enqueueBatch user items batchId =>
      exact (lastReleases_enqueueBatch user items batchId).map FirstUseValue.batch
  | createSchedule user data id queueId =>
      exact (lastReleases_createSchedule user data id queueId).map FirstUseValue.scheduled

theorem Resting.queueNames (hm : Resting m₀) : QueueNames m₀ m₀ := by
  have hversion : ∀ id q, QueueVersion m₀ id q → committedQueue m₀ id = some q := by
    intro id q hq
    rcases hq with hq | ⟨s, hq⟩
    · exact hq
    · rw [hm.unlocked] at hq
      cases hq
  refine ⟨fun id => ?_, rfl, fun id q hq => hm.checks id q (hversion id q hq), ?_⟩
  · have hpending := hm.unlocked (.project id)
    cases hcell : m₀.cell (.project id) with
    | mk committed pending =>
        rw [hcell] at hpending
        rw [Txn.Store.stored, hcell]
        exact congrArg _ hpending
  · exact fun i j q q' hq hq' => hm.names i j q q' (hversion i q hq) (hversion j q' hq')

end Calls

theorem releasing_firstUse {cron : CronClock} {validCron : String → Bool} {m₀ : Db}
    (hm : Resting m₀) {s : FirstUseState}
    {ok : FirstUseState → FirstUseEvent → FirstUseState → Prop}
    (h : Reaches (firstUseSystem cron validCron).step ok (.init m₀) s) : s.Releasing :=
  .of_reaches hm.wf hm.unlocked (fun _ _ _ _ => lastReleases_body) h

-- In every run in which no schedule's call loses the race for the name of its queue, and no calls
-- wait for each other in a circle, all calls succeed, and the rows they create refer to one queue.
theorem first_use_races {cron : CronClock} {validCron : String → Bool} {m₀ : Db}
    (hm : Resting m₀) {s : FirstUseState}
    (h : Reaches (firstUseSystem cron validCron).step
      (fun s ev _ => Undisturbed cron m₀ s ev ∧ NameFree s ev) (.init m₀) s)
    (hnew : s.NewKeys) (hcircle : ¬ Circular s) : FirstUsed cron validCron m₀ s := by
  have hvalid : (firstUse cron m₀).spec.Valid (firstUseSystem cron validCron) :=
    Adding.valid fun _ _ _ hmay hadmits => places_call hmay hadmits
  have hidle : ∀ k t v, ((Txn.Pool.init m₀ : FirstUseState).mem.cell k).pending ≠ some (t, v) := by
    intro k t v hp
    rw [Txn.Pool.init, hm.unlocked] at hp
    cases hp
  have hinit : Txn.Pool.Inv (firstUse cron m₀).spec (.init m₀) := by
    refine ⟨hm.wf, ⟨hm.queueNames, fun k t v hp => absurd hp (hidle k t v)⟩, trivial, ?_,
      fun k t v hp => absurd hp (hidle k t v), ?_⟩
    · simp [Txn.Pool.init]
    · simp [Txn.Pool.init]
  have hinv := hinit.reaches hvalid (h.mono fun s ev s' hok =>
    ⟨trivial, hok.1.start, fun t c β st next hev ht =>
      ⟨hok.1.run t c st next hev ht, hok.2 t c st next hev ht⟩⟩)
  constructor
  · exact fun i j q q' hq hq' => hinv.inv.1.unique i j q q' (.inl hq) (.inl hq')
  · exact fun t c v ht => hinv.safe t c _ ht s.mem .refl
  · exact fun t ht => (releasing_firstUse hm h).goes_on hnew (not_exists.mp hcircle) ht
  · exact Txn.System.ends _ (releasing_firstUse hm h).opened

section Example

theorem Initial.resting {m : Db} (h : Initial m) : Resting m := by
  have hempty : ∀ id q, committedQueue m id ≠ some q := by
    intro id q hq
    rw [committedQueue, h.queue id] at hq
    cases hq
  exact ⟨h.wf, h.unlocked, fun id q hq => absurd hq (hempty id q),
    fun i _ q _ hq => absurd hq (hempty i q)⟩

-- A check of the requests of the examples.
def storableIn (m₀ : Db) (user : SessionUser) (projectId : Option ProjectId) (name : String)
    (storable : Bool) : Bool :=
  storable && storableText name && (projectOf m₀ user projectId).isSome

def FirstUseCall.validIn (m₀ m : Db) : FirstUseCall → Bool
  | .enqueue user data _ =>
      storableIn m₀ user data.projectId data.queue data.storable && decide data.dependsOn.Nodup &&
        data.dependsOn.all fun d => (m.stored (.job d)).any fun e => e.job.ownerId = user.id
  | .enqueueBatch user items _ => items.all fun item =>
      storableIn m₀ user item.data.projectId item.data.queue item.data.storable
  | .createSchedule user data _ _ => storableIn m₀ user data.projectId data.queue data.storable

theorem storable_of_storableIn {m₀ : Db} {user : SessionUser} {projectId : Option ProjectId}
    {name : String} {storable : Bool} (h : storableIn m₀ user projectId name storable = true) :
    Storable m₀ user projectId name storable := by
  simp only [storableIn, Bool.and_eq_true] at h
  exact ⟨h.1.1, h.1.2, h.2⟩

theorem FirstUseCall.valid_of_validIn {m₀ m : Db} {c : FirstUseCall}
    (h : c.validIn m₀ m = true) : c.Valid exampleCron m₀ m := by
  cases c with
  | enqueue user data ids =>
      simp only [validIn, Bool.and_eq_true, decide_eq_true_eq, List.all_eq_true] at h
      refine ⟨storable_of_storableIn h.1.1, h.1.2, fun d hd => ?_⟩
      obtain ⟨e, he, howner⟩ := (Option.any_eq_true _ _).mp (h.2 d hd)
      exact ⟨e, he, of_decide_eq_true howner⟩
  | enqueueBatch user items batchId =>
      exact fun item hitem => storable_of_storableIn (List.all_eq_true.mp h item hitem)
  | createSchedule user data id queueId => exact ⟨storable_of_storableIn h, fun now => rfl⟩

def undisturbed (m₀ : Db) (s : FirstUseState) : FirstUseEvent → Bool
  | .start _ c => c.validIn m₀ s.mem
  | .run t =>
      match s.thread t with
      | some ⟨_, some (.op st _)⟩ => !jobClash t s.mem st
      | _ => true
  | _ => true

def nameFree (s : FirstUseState) : FirstUseEvent → Bool
  | .run t =>
      match s.thread t with
      | some ⟨c, some (.op st _)⟩ => !(c.schedules && queueClash t s.mem st)
      | _ => true
  | _ => true

theorem undisturbed_sound {m₀ : Db} {s : FirstUseState} {ev : FirstUseEvent}
    (h : undisturbed m₀ s ev = true) : Undisturbed exampleCron m₀ s ev where
  start t c hev := by
    subst hev
    exact FirstUseCall.valid_of_validIn h
  run t c β st next hev ht := by
    subst hev
    simpa [undisturbed, ht] using h

theorem nameFree_sound {s : FirstUseState} {ev : FirstUseEvent} (h : nameFree s ev = true) :
    NameFree s ev := by
  intro t c β st next hev ht hc
  subst hev
  simpa [nameFree, ht, hc] using h

def firstUseAfter (check : FirstUseState → FirstUseEvent → Bool) (events : List FirstUseEvent) :
    FirstUseState :=
  (Txn.runAll (firstUseSystem exampleCron fun _ => true).step (fun s ev _ => check s ev)
    (.init exampleDb) events).getD (.init exampleDb)

theorem reaches_firstUseAfter (check : FirstUseState → FirstUseEvent → Bool)
    (events : List FirstUseEvent) :
    Reaches (firstUseSystem exampleCron fun _ => true).step (fun s ev _ => check s ev = true)
      (.init exampleDb) (firstUseAfter check events) :=
  Reaches.getD_runAll (fun s ev _ => check s ev) events

-- A check of the keys, and of who waits, over the calls there are.
def keysAreNew (s : FirstUseState) : Bool :=
  s.mem.opened.all fun t =>
    match s.thread t with
    | some ⟨_, some (.op st _)⟩ => st.NewKey s.mem
    | _ => true

def nobodyWaitsForWaiting (s : FirstUseState) : Bool :=
  s.mem.opened.all fun t => (s.blockers t).all fun u => (s.blockers u).isEmpty

def nobodyGoesOn (s : FirstUseState) : Bool :=
  s.mem.opened.all fun t =>
    ((firstUseSystem exampleCron fun _ => true).step s (.run t)).isNone

section Checked

variable {s : FirstUseState}

theorem newKeys_of_keysAreNew (hs : s.Releasing) (h : keysAreNew s = true) : s.NewKeys := by
  intro t c β st next ht
  have hopened := hs.opened t (by simp [ht])
  simpa [ht] using List.all_eq_true.mp h t hopened

theorem not_circular_of_check (hwf : s.mem.WF) (hs : s.Releasing)
    (h : nobodyWaitsForWaiting s = true) : ¬ Circular s := by
  rintro ⟨t, hcircle⟩
  refine Txn.Pool.no_circle hwf (fun t u hu => ?_) t hcircle
  have hopened : t ∈ s.mem.opened := by
    refine hs.opened t fun hnone => ?_
    simp [Txn.Pool.blockers, hnone] at hu
  exact List.isEmpty_iff.mp (List.all_eq_true.mp (List.all_eq_true.mp h t hopened) u hu)

theorem stuck_of_nobodyGoesOn (hs : s.Releasing) (h : nobodyGoesOn s = true) (t : TxId)
    (s' : FirstUseState) :
    (firstUseSystem exampleCron fun _ => true).step s (.run t) ≠ some s' := by
  intro hstep
  by_cases hopened : t ∈ s.mem.opened
  · have hnone := List.all_eq_true.mp h t hopened
    simp [hstep] at hnone
  · have hthread : s.thread t = none := by
      by_contra hsome
      exact hopened (hs.opened t hsome)
    simp [Txn.System.step, hthread] at hstep

end Checked

-- The calls take turns, so many statements at a time.
def turns (schedule : List (TxId × Nat)) : List FirstUseEvent :=
  schedule.flatMap fun p => List.replicate p.2 (.run p.1)

-- Both calls find no queue, and the batch inserts it: the other call waits.
def waitingEvents : List FirstUseEvent :=
  .start 1 (.enqueueBatch exampleUser
      [⟨exampleBody none [], 7, 8⟩, ⟨exampleBody none [], 9, 10⟩] 11) ::
    .start 2 (.enqueue exampleUser (exampleBody none []) ⟨12, 13, 14⟩) ::
      turns [(1, 3), (2, 3), (1, 1)]

-- Then it takes the row of the batch.
def lostRaceEvents : List FirstUseEvent := waitingEvents ++ turns [(1, 4), (2, 6)]

-- The queue of a job that has been created, and whether the call of `t` has returned.
def queueOf (s : FirstUseState) (id : JobId) : Option QueueId :=
  (committedJob s.mem id).map fun e => e.job.queueId

def isDone (s : FirstUseState) (t : TxId) : Bool :=
  match s.thread t with
  | some ⟨_, some (.pure _)⟩ => true
  | _ => false

def unhurried (s : FirstUseState) (ev : FirstUseEvent) : Bool :=
  undisturbed exampleDb s ev && nameFree s ev

theorem unhurried_sound {s : FirstUseState} {ev : FirstUseEvent} (h : unhurried s ev = true) :
    Undisturbed exampleCron exampleDb s ev ∧ NameFree s ev := by
  rw [unhurried, Bool.and_eq_true] at h
  exact ⟨undisturbed_sound h.1, nameFree_sound h.2⟩

theorem first_use_races_lost :
    let s := firstUseAfter unhurried waitingEvents
    let s' := firstUseAfter unhurried lostRaceEvents
    s.blockers 2 = [1] ∧ FirstUsed exampleCron (fun _ => true) exampleDb s ∧
      (isDone s' 1 && isDone s' 2) = true ∧
        [7, 9, 12].map (queueOf s') = [some 8, some 8, some 8] ∧
          FirstUsed exampleCron (fun _ => true) exampleDb s' := by
  have hwf (events : List FirstUseEvent) : (firstUseAfter unhurried events).mem.WF :=
    Txn.System.wf exampleDb_initial.wf (reaches_firstUseAfter unhurried events)
  have hs (events : List FirstUseEvent) : (firstUseAfter unhurried events).Releasing :=
    releasing_firstUse exampleDb_initial.resting (reaches_firstUseAfter unhurried events)
  refine ⟨by decide +kernel, ?_, by decide +kernel, by decide +kernel, ?_⟩
  · exact first_use_races exampleDb_initial.resting
      ((reaches_firstUseAfter _ waitingEvents).mono fun s ev s' h => unhurried_sound h)
      (newKeys_of_keysAreNew (hs _) (by decide +kernel))
      (not_circular_of_check (hwf _) (hs _) (by decide +kernel))
  · exact first_use_races exampleDb_initial.resting
      ((reaches_firstUseAfter _ lostRaceEvents).mono fun s ev s' h => unhurried_sound h)
      (newKeys_of_keysAreNew (hs _) (by decide +kernel))
      (not_circular_of_check (hwf _) (hs _) (by decide +kernel))

-- The same race, lost by a schedule's call.
def refusedEvents : List FirstUseEvent :=
  .start 1 (.createSchedule exampleUser exampleSchedule 3 4) ::
    .start 2 (.enqueue exampleUser (exampleBody none []) ⟨7, 8, 9⟩) :: turns [(1, 3), (2, 8), (1, 2)]

def hasFailed (s : FirstUseState) (t : TxId) : Bool :=
  match s.thread t with
  | some ⟨.createSchedule _ _ _ _, some (.pure (.scheduled (.error .integrity)))⟩ => true
  | _ => false

theorem not_firstUsed_of_hasFailed {cron : CronClock} {validCron : String → Bool} {m₀ : Db}
    {s : FirstUseState} {t : TxId} (h : hasFailed s t = true) : ¬ FirstUsed cron validCron m₀ s := by
  intro hused
  unfold hasFailed at h
  split at h
  · rename_i ht
    exact hused.succeeds t _ _ ht
  · cases h

theorem schedule_loses_race : ¬ ∀ cron validCron m₀ s, Resting m₀ →
    Reaches (firstUseSystem cron validCron).step (fun s ev _ => Undisturbed cron m₀ s ev)
      (.init m₀) s → s.NewKeys → FirstUsed cron validCron m₀ s := by
  intro h
  have hreach := reaches_firstUseAfter (undisturbed exampleDb) refusedEvents
  have hfailed : hasFailed (firstUseAfter (undisturbed exampleDb) refusedEvents) 1 = true := by
    decide +kernel
  refine not_firstUsed_of_hasFailed hfailed (h exampleCron (fun _ => true) exampleDb _
    exampleDb_initial.resting (hreach.mono fun s ev s' hok => undisturbed_sound hok) ?_)
  exact newKeys_of_keysAreNew (releasing_firstUse exampleDb_initial.resting hreach)
    (by decide +kernel)

def namedBody (queue : String) : JobCreate := { exampleBody none [] with queue := queue }

-- Two batches that create two queues in opposite order: each has inserted its first.
def oppositeEvents : List FirstUseEvent :=
  .start 1 (.enqueueBatch exampleUser [⟨namedBody "mail", 7, 8⟩, ⟨namedBody "reports", 9, 10⟩] 11) ::
    .start 2 (.enqueueBatch exampleUser
      [⟨namedBody "reports", 12, 13⟩, ⟨namedBody "mail", 14, 15⟩] 16) ::
      turns [(1, 4), (2, 4), (1, 3), (2, 3)]

theorem opposite_batches_wait :
    let s := firstUseAfter unhurried oppositeEvents
    Circular s ∧ ¬ FirstUsed exampleCron (fun _ => true) exampleDb s := by
  have hreach := reaches_firstUseAfter unhurried oppositeEvents
  have hwf : (firstUseAfter unhurried oppositeEvents).mem.WF :=
    Txn.System.wf exampleDb_initial.wf hreach
  have hs := releasing_firstUse exampleDb_initial.resting hreach
  have hfirst : WaitsFor (firstUseAfter unhurried oppositeEvents) 1 2 :=
    (Txn.Pool.mem_blockers hwf).mp (by decide +kernel)
  have hsecond : WaitsFor (firstUseAfter unhurried oppositeEvents) 2 1 :=
    (Txn.Pool.mem_blockers hwf).mp (by decide +kernel)
  refine ⟨⟨1, .tail (.single hfirst) hsecond⟩, fun hused => ?_⟩
  obtain ⟨c, β, st, next, -, -, ht, -⟩ := hfirst
  obtain ⟨u, s', hstep⟩ := hused.goes_on 1 ⟨c, β, st, next, ht⟩
  exact stuck_of_nobodyGoesOn hs (by decide +kernel) u s' hstep

end Example

end Chronos
