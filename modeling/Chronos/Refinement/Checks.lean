import Chronos.Refinement.Runs

namespace Chronos

open Txn (TxId Reaches runAll)

-- Conditions that can be evaluated, step by step.
structure Checks where
  caps : List (QueueId × Int)
  finalize : Finalizer → TxId → Job → JobEntry → Bool
  -- A complete_failure may store a summary.
  summaries : Bool
  gated : Bool
  exclusive : UserId → String → Bool

namespace Checks

variable (k : Checks) (m : Db)

def capsFixed : Bool :=
  k.caps.all fun p => (committedQueue m p.1).all fun row => row.maxConcurrency = some p.2

def hasProject (user : SessionUser) (projectId : Option ProjectId) : Bool :=
  (m.keys.filterMap Key.projectId).any fun id =>
    (m.cell (.project id)).committed.any (fun p => p.orgId = user.orgId) && projectId.all (· = id)

def validBody (user : SessionUser) (data : JobCreate) : Bool :=
  data.storable && storableText data.queue && hasProject m user data.projectId &&
    data.dependsOn.all (fun d => (committedJob m d).any fun e => e.job.ownerId = user.id) &&
      decide data.dependsOn.Nodup

def admits : Call → Bool
  | .enqueue user data _ =>
      data.idempotencyKey.all fun key => !k.exclusive user.id key || validBody m user data
  | _ => true

def depsMet (e : JobEntry) : Bool :=
  e.dependsOn.all fun d => (committedJob m d).any fun dep => dep.job.status = .succeeded

def updatesJob : {β : Type} → Txn.Stmt Key Row Time β → Bool
  | _, .update (.job _) _ _ => true
  | _, _ => false

def summarizes : Finalizer → Bool
  | .completeFailure _ _ summary => summary.isSome
  | _ => false

def insertsJob : {β : Type} → Txn.Stmt Key Row Time β → Bool
  | _, .insert (.job _) _ _ => true
  | _, _ => false

def locksReady : {β : Type} → Txn.Stmt Key Row Time β → Bool
  | _, .lock (.job id) guard =>
      ((committedJob m id).all fun e => (pendingJob m id).isSome || !guard e || depsMet m e) &&
        (pendingJob m id).all fun p => !guard p.2 || depsMet m p.2
  | _, _ => true

def keyFree (ownerId : UserId) (key : String) : Bool :=
  (m.keys.filterMap Key.jobId).all fun id => (committedJob m id).all fun e =>
    !(decide (e.job.ownerId = ownerId) && decide (e.job.idempotencyKey = some key))

def permitsCall {β : Type} (st : Txn.Stmt Key Row Time β) : Call → Bool
  | .finalize claim job workerId f => !updatesJob st || (k.summaries || !summarizes f) &&
      (committedJob m job.id).all fun e => !leaseGuard workerId e.job || k.finalize f claim job e
  | .enqueue user data _ => !insertsJob st || data.idempotencyKey.all fun key =>
      !k.exclusive user.id key || keyFree m user.id key
  | _ => true

def permits {β : Type} (c : Call) (st : Txn.Stmt Key Row Time β) : Bool :=
  (!k.gated || locksReady m st) && k.permitsCall m st c

def allows (s : State) : Event → Bool
  | .start _ c => k.admits s.mem c
  | .run t =>
      match s.thread t with
      | some ⟨c, some (.op st _)⟩ => k.permits s.mem c st
      | _ => true
  | _ => true

def step (s : State) (e : Event) (s' : State) : Bool := k.capsFixed s'.mem && k.allows s e

variable {k m}

theorem capsFixed_sound (h : k.capsFixed m = true) {q : QueueId} {n : Int} (hq : (q, n) ∈ k.caps)
    {row : Queue} (hrow : committedQueue m q = some row) : row.maxConcurrency = some n := by
  have hall := List.all_eq_true.mp h (q, n) hq
  rwa [hrow, Option.all_some, decide_eq_true_eq] at hall

theorem validBody_sound {user : SessionUser} {data : JobCreate}
    (h : validBody m user data = true) : ValidBody m user data := by
  simp only [validBody, Bool.and_eq_true, decide_eq_true_eq] at h
  obtain ⟨⟨⟨⟨hstored, hqueue⟩, hproject⟩, hdeps⟩, hnodup⟩ := h
  refine ⟨hstored, hqueue, ?_, fun d hd => ?_, hnodup⟩
  · obtain ⟨id, -, hid⟩ := List.any_eq_true.mp hproject
    rw [Bool.and_eq_true] at hid
    obtain ⟨p, hp, horg⟩ := (Option.any_eq_true _ _).mp hid.1
    rw [decide_eq_true_eq] at horg
    refine ⟨id, p, hp, horg, fun i hi => ?_⟩
    have hall := hid.2
    rw [hi, Option.all_some, decide_eq_true_eq] at hall
    exact hall
  · obtain ⟨e, he, howner⟩ := (Option.any_eq_true _ _).mp (List.all_eq_true.mp hdeps d hd)
    exact ⟨e, he, by simpa using howner⟩

theorem depsMet_sound {e : JobEntry} (h : depsMet m e = true) : DepsMet m e := by
  intro d hd
  obtain ⟨dep, hdep, hstatus⟩ := (Option.any_eq_true _ _).mp (List.all_eq_true.mp h d hd)
  exact ⟨dep, hdep, by simpa using hstatus⟩

theorem keyFree_sound (hwf : m.WF) {ownerId : UserId} {key : String}
    (h : keyFree m ownerId key = true) {id : JobId} {e : JobEntry}
    (he : committedJob m id = some e) : ¬ HasKey ownerId key e := by
  rintro ⟨howner, hkey⟩
  have hid : id ∈ m.keys.filterMap Key.jobId :=
    List.mem_filterMap.mpr ⟨_, hwf.mem_of_committed he, rfl⟩
  have hall := List.all_eq_true.mp h id hid
  rw [he, Option.all_some, howner, hkey] at hall
  simp at hall

-- The conditions that a check stands for.
structure Covers (k : Checks) (cond : Conditions) : Prop where
  cap : ∀ q n, cond.cap q = some n → (q, n) ∈ k.caps
  fixed : ∀ q, cond.fixed q
  finalize : ∀ f claim job e, k.finalize f claim job e = true → cond.finalize f claim job e
  summary : k.summaries = true → ∀ t claim e, cond.summary t claim e
  gated : cond.gated → k.gated = true
  exclusive : ∀ ownerId key, cond.exclusive ownerId key → k.exclusive ownerId key = true

variable {cond : Conditions}

theorem permits_sound (hk : k.Covers cond) (hwf : m.WF) {c : Call} {β : Type}
    {st : Txn.Stmt Key Row Time β} (h : k.permits m c st = true) : Permits cond c t st m := by
  rw [permits, Bool.and_eq_true] at h
  obtain ⟨hgate, hcall⟩ := h
  refine ⟨?_, ?_, ?_, ?_, fun _ _ e _ hfree => absurd (hk.fixed _) hfree,
    fun _ q _ hfree => absurd (hk.fixed q) hfree⟩
  · rintro claim job workerId f rfl hst e he hg
    cases hst with
    | mk set =>
        simp only [permitsCall, updatesJob, Bool.not_true, Bool.false_or, he, Option.all_some,
          hg, Bool.and_eq_true] at hcall
        exact hk.finalize f claim job e hcall.2
  · rintro claim job workerId error rng text rfl hst e -
    cases hst with
    | mk =>
        simp only [permitsCall, updatesJob, summarizes, Option.isSome_some, Bool.not_true,
          Bool.false_or, Bool.or_false, Bool.and_eq_true] at hcall
        exact hk.summary hcall.1 t claim e
  · rintro id now q hst hgated e hseen hfree hg
    cases hst with
    | mk =>
        simp only [hk.gated hgated, Bool.not_true, Bool.false_or, locksReady, Bool.and_eq_true] at hgate
        cases hp : pendingJob m id with
        | none =>
            have he : committedJob m id = some e := (Txn.Cell.seen_of_free hp).symm.trans hseen
            simp only [he, hp, Option.all_some, Option.isSome_none, hg, Bool.not_true,
              Bool.false_or] at hgate
            exact depsMet_sound hgate.1
        | some p =>
            obtain ⟨u, v⟩ := p
            obtain rfl := Txn.Cell.freeFor_iff.mp hfree u v hp
            obtain rfl : v = e := Option.some.inj ((Txn.Cell.seen_of_held hp).symm.trans hseen)
            simp only [hp, Option.all_some, hg, Bool.not_true, Bool.false_or] at hgate
            exact depsMet_sound hgate.2
  · rintro user data ids key rfl hkey hex hst id e he
    cases hst with
    | mk id' row clash =>
        simp only [permitsCall, insertsJob, Bool.not_true, Bool.false_or, hkey, Option.all_some,
          hk.exclusive user.id key hex] at hcall
        exact keyFree_sound hwf hcall he

theorem step_sound (hk : k.Covers cond) {s s' : State} (hwf : s.mem.WF) {e : Event}
    (h : k.step s e s' = true) : (spec cond).Permitted s e s' := by
  rw [step, Bool.and_eq_true] at h
  obtain ⟨hcaps, hevent⟩ := h
  refine ⟨?_, ?_, ?_⟩
  · exact fun q n _ hq row hrow => capsFixed_sound hcaps (hk.cap q n hq) hrow
  · rintro t c rfl user data ids key rfl hkey hex
    simp only [allows, admits, hkey, Option.all_some, hk.exclusive user.id key hex, Bool.not_true,
      Bool.false_or] at hevent
    exact validBody_sound hevent
  · rintro t c β st next rfl ht
    simp only [allows, ht] at hevent
    exact permits_sound hk hwf hevent

end Checks

-- A run that has been checked is a run under the conditions.
theorem run_of_checks {k : Checks} {cond : Conditions} (hk : k.Covers cond) {m : Db}
    (hm : Initial m) {s : State}
    (h : Reaches system.step (fun s e s' => k.step s e s' = true) (Txn.Pool.init m) s) :
    Run cond m s := by
  have hall : Run cond m s ∧ s.mem.WF := by
    refine h.invariant (P := fun s => Run cond m s ∧ s.mem.WF) ⟨.refl, hm.wf⟩
      fun s e s' _ ⟨hrun, hwf⟩ he hok => ?_
    have hnext : Run cond m s' := .tail hrun he (Checks.step_sound hk hwf hok)
    exact ⟨hnext, (Run.inv hm hnext).wf⟩
  exact hall.1

section Example

-- One organization with one project, and a user of it.
def exampleDb : Db where
  keys := [.project 0, .advisory ExecutionService.REAPER_ADVISORY_LOCK_KEY]
  cell
    | .project 0 => ⟨some { id := 0, orgId := 0, name := "main", createdAt := 0 }, none⟩
    | .advisory key => if key = ExecutionService.REAPER_ADVISORY_LOCK_KEY then ⟨some (), none⟩
        else .empty
    | _ => .empty
  clock := 0
  opened := []

theorem exampleDb_initial : Initial exampleDb where
  wf := by
    refine ⟨by simp [exampleDb], fun k hk => ?_⟩
    simp only [exampleDb, List.mem_cons, List.not_mem_nil, or_false, not_or] at hk
    unfold exampleDb
    dsimp only
    split
    · exact absurd rfl hk.1
    · split
      · rename_i heq
        exact absurd (congrArg Key.advisory heq) hk.2
      · rfl
    · rfl
  job _ := rfl
  queue _ := rfl
  unlocked k := by
    unfold exampleDb
    dsimp only
    split
    · rfl
    · split <;> rfl
    · rfl
  opened := rfl

def exampleUser : SessionUser := ⟨0, 0, true⟩

def exampleBody (key : Option String) (dependsOn : List JobId) : JobCreate where
  taskName := "report"
  payload := "{}"
  queue := "default"
  projectId := none
  priority := none
  backoffStrategy := none
  runAt := none
  maxAttempts := none
  timeoutSeconds := none
  backoffBaseSeconds := none
  backoffFactor := none
  backoffMaxSeconds := none
  idempotencyKey := key
  dependsOn := dependsOn

def exampleClaim (workerId : WorkerId) : JobRepository.ClaimArgs :=
  ⟨workerId, ["default"], 1, 30, none, ⟨60, 200⟩⟩

-- A call and `n` of its statements.
def whole (t : TxId) (c : Call) (n : Nat) : List Event := .start t c :: List.replicate n (.run t)

-- The state after a run whose steps all pass the checks.
def Checks.stateAfter (k : Checks) (events : List Event) : State :=
  (runAll system.step k.step (Txn.Pool.init exampleDb) events).getD (Txn.Pool.init exampleDb)

theorem Checks.reaches_stateAfter (k : Checks) (events : List Event) :
    Reaches system.step (fun s e s' => k.step s e s' = true) (Txn.Pool.init exampleDb)
      (k.stateAfter events) :=
  Reaches.getD_runAll k.step events

theorem Checks.run_stateAfter (k : Checks) (events : List Event) {cond : Conditions}
    (hk : k.Covers cond) : Run cond exampleDb (k.stateAfter events) :=
  run_of_checks hk exampleDb_initial (k.reaches_stateAfter events)

def Checks.none : Checks := ⟨[], fun _ _ _ _ => true, true, false, fun _ _ => false⟩

-- Runs without checks.
abbrev stateAfter (events : List Event) : State := Checks.none.stateAfter events

theorem reachable_stateAfter (events : List Event) :
    system.Reachable exampleDb (stateAfter events) :=
  (Checks.none.reaches_stateAfter events).mono fun _ _ _ _ => trivial

-- The state after a run whose steps all pass one check of state and event.
def eventsAfter (check : State → Event → Bool) (events : List Event) : State :=
  (runAll system.step (fun s ev _ => check s ev) (Txn.Pool.init exampleDb) events).getD
    (Txn.Pool.init exampleDb)

theorem reaches_eventsAfter (check : State → Event → Bool) (events : List Event) :
    Reaches system.step (fun s ev _ => check s ev = true) (Txn.Pool.init exampleDb)
      (eventsAfter check events) :=
  Reaches.getD_runAll (fun s ev _ => check s ev) events

-- Job 7 is created, and worker 5 claims it.
def createdEvents : List Event := whole 1 (.enqueue exampleUser (exampleBody none []) ⟨7, 8, 9⟩) 8

def claimedEvents : List Event := createdEvents ++ whole 2 (.claimJobs (exampleClaim 5)) 7

-- The lease of worker 5 expires, and the job is reclaimed.
def reclaimedEvents : List Event :=
  claimedEvents ++ [.tick 31] ++ whole 3 (.reapOnce 60 id fun _ => Draw.zero) 9 ++ [.tick 40]

-- The job as a claim at `now` hands it out for the `n`-th time.
def exampleJob (workerId : WorkerId) (n : Int) (now : Time) : Job :=
  JobRepository.claimValues workerId 30 now
    { JobService.buildJob 7 0 (Queue.fresh 8 0 "default") (exampleBody none []) none 0 with
      attemptCount := n - 1 }

-- Worker 5 has claimed the job again when its first execution completes it.
def staleEvents : List Event :=
  reclaimedEvents ++ whole 4 (.claimJobs (exampleClaim 5)) 7 ++
    whole 5 (.finalize 2 (exampleJob 5 1 0) 5 (.completeSuccess none)) 3

end Example

end Chronos
