import Chronos.Refinement.Checks

namespace Chronos

open Txn (TxId Reaches)

variable {q : QueueId} {k : Int} {m : Db} {s s' : State} {ev : Event}

def capIs (q : QueueId) (k : Int) (m : Db) : Bool :=
  (committedQueue m q).all fun row => row.maxConcurrency = some k

-- The COMMIT of a PATCH that puts the cap in force.
def installsCap (q : QueueId) (k : Int) (s : State) : Event → Bool
  | .run t =>
      match s.thread t with
      | some ⟨_, some (.op .commit _)⟩ => !capIs q k s.mem && capIs q k (s.mem.commit t)
      | _ => false
  | _ => false

def countCommitted (q : QueueId) (m : Db) : Nat :=
  ((m.keys.filterMap Key.jobId).filter fun id => (committedJob m id).any (·.counts q)).length

-- When the cap is installed, at most `k` jobs of the queue are RUNNING and committed.
def fitsCap (q : QueueId) (k : Int) (s : State) : Event → Bool
  | .run t => !installsCap q k s (.run t) || decide ((countCommitted q (s.mem.commit t) : Int) ≤ k)
  | _ => true

-- A row that a transaction has flipped to RUNNING and not committed.
def noFlips (q : QueueId) (m : Db) : Bool :=
  (m.keys.filterMap Key.jobId).all fun id => (pendingJob m id).all fun p =>
    !p.2.counts q || (committedJob m id).any (·.counts q)

-- The uncapped pass of `t` flips a job of the queue.
def flipsUncapped (q : QueueId) (t : TxId) (m : Db) : {β : Type} → Txn.Stmt Key Row Time β → Bool
  | _, .write (.job id) set => (pendingJob m id).any fun p => p.1 = t && p.2.job.queueId = q &&
      match (set p.2).log with
      | .claimed _ _ .uncapped :: older => older.length = p.2.log.length
      | _ => false
  | _, _ => false

-- No transaction has flipped jobs of the queue when the cap is installed, and the uncapped pass
-- flips none from then on.
def keepsCap (q : QueueId) (k : Int) (s : State) : Event → Bool
  | .run t => (!installsCap q k s (.run t) || noFlips q (s.mem.commit t)) &&
      match s.thread t with
      | some ⟨_, some (.op st _)⟩ => !flipsUncapped q t s.mem st ||
          (committedQueue s.mem q).any fun row => row.maxConcurrency ≠ some k
      | _ => true
  | _ => true

-- In the runs in which the cap is installed on a queue it fits, the queue stays within it.
def CapHolds (q : QueueId) (k : Int) (m : Db) (ok : State → Event → Bool) : Prop :=
  ∀ s, Reaches system.step (fun s ev _ => fitsCap q k s ev = true ∧ ok s ev = true)
      (Txn.Pool.init m) s →
    ∀ row, committedQueue s.mem q = some row → row.maxConcurrency = some k → (load s.mem q : Int) ≤ k

def installCondition (q : QueueId) (k : Int) : Conditions :=
  { Conditions.none with cap := fun q' => if q' = q then some k else none, fixed := fun _ => False }

theorem capIs_iff : capIs q k m = true ↔ CapIs q k m := by
  simp only [capIs, CapIs, Option.all_eq_true, decide_eq_true_eq]

theorem capped_iff {q' : QueueId} {k' : Int} :
    Capped (installCondition q k) m q' k' ↔ q' = q ∧ k' = k ∧ CapIs q k m := by
  constructor
  · rintro ⟨hcap, hrow⟩
    simp only [installCondition, Option.ite_none_right_eq_some, Option.some.injEq] at hcap
    obtain ⟨rfl, rfl⟩ := hcap
    exact ⟨rfl, rfl, hrow⟩
  · rintro ⟨rfl, rfl, hrow⟩
    exact ⟨if_pos rfl, hrow⟩

-- Without flips, what is RUNNING is what is committed as RUNNING.
theorem capOk_of_noFlips (hwf : m.WF) (hflips : noFlips q m = true)
    (hfits : (countCommitted q m : Int) ≤ k) : CapOk m q k := by
  have hcommitted : ∀ id t e, pendingJob m id = some (t, e) → e.counts q = true →
      (committedJob m id).any (·.counts q) = true := by
    intro id t e hp hc
    have hkey : Key.job id ∈ m.keys := mem_keys_of_running hwf (running_iff.mpr ⟨e, .inr ⟨t, hp⟩, hc⟩)
    have hall := List.all_eq_true.mp hflips id (mem_jobIds.mpr hkey)
    simpa [hp, hc] using hall
  refine ⟨fun id t e hp hc => .inl (hcommitted id t e hp hc), ?_⟩
  have hsub : loaded m q ⊆ ((m.keys.filterMap Key.jobId).filter fun id =>
      (committedJob m id).any (·.counts q)).toFinset := by
    intro id hid
    obtain ⟨hkey, hrun⟩ := mem_loaded.mp hid
    rw [List.mem_toFinset, List.mem_filter]
    refine ⟨mem_jobIds.mpr hkey, ?_⟩
    obtain ⟨e, he | ⟨t, hp⟩, hc⟩ := running_iff.mp hrun
    · exact (Option.any_eq_true _ _).mpr ⟨e, he, hc⟩
    · exact hcommitted id t e hp hc
  have hcard := (Finset.card_le_card hsub).trans (List.toFinset_card_le _)
  unfold countCommitted at hfits
  unfold load
  omega

theorem permitted_keepsCap (hwf : s.mem.WF) (hfits : fitsCap q k s ev = true)
    (hok : keepsCap q k s ev = true) : (spec (installCondition q k)).Permitted s ev s' where
  assume _ _ hfixed := hfixed.elim
  start _ _ _ _ _ _ _ _ _ hex := hex.elim
  run t c β st next hev ht := by
    subst hev
    simp only [keepsCap, ht, Bool.and_eq_true, Bool.or_eq_true, Bool.not_eq_true'] at hok
    obtain ⟨hinstall, hflip⟩ := hok
    refine ⟨fun _ _ _ _ _ _ _ _ _ => trivial, fun _ _ _ _ _ _ _ _ _ _ => trivial,
      fun _ _ _ _ h => h.elim,
      fun _ _ _ _ _ _ h => h.elim, fun id hst e hp _ k' hk => ?_, fun hst q' k' _ hk => ?_⟩
    · obtain ⟨hq, -, hrow⟩ := capped_iff.mp hk
      cases hst with
      | mk tx workerId leaseSeconds now =>
          have hflips : flipsUncapped q t s.mem (.write (Key.job id)
              (JobEntry.claim tx workerId leaseSeconds now .uncapped)) = true := by
            simp [flipsUncapped, hp, hq, JobEntry.claim, JobEntry.amend]
          rw [hflips] at hflip
          obtain ⟨row, hqueue, hne⟩ := (Option.any_eq_true _ _).mp (hflip.resolve_left (by simp))
          rw [decide_eq_true_eq] at hne
          exact hne (hrow row hqueue)
    · obtain ⟨rfl, rfl, hrow⟩ := capped_iff.mp hk
      cases hst with
      | mk =>
          by_cases hbefore : CapIs q' k' s.mem
          · exact .inl (capped_iff.mpr ⟨rfl, rfl, hbefore⟩)
          · have hinstalls : installsCap q' k' s (.run t) = true := by
              simp only [installsCap, ht, Bool.and_eq_true, Bool.not_eq_true', Bool.eq_false_iff]
              exact ⟨fun h => hbefore (capIs_iff.mp h), capIs_iff.mpr hrow⟩
            simp only [fitsCap, hinstalls, Bool.not_true, Bool.false_or, decide_eq_true_eq] at hfits
            rw [hinstalls] at hinstall
            exact .inr (capOk_of_noFlips hwf.commit (hinstall.resolve_left (by simp)) hfits)

theorem run_of_keepsCap (hm : Initial m)
    (h : Reaches system.step (fun s ev _ => fitsCap q k s ev = true ∧ keepsCap q k s ev = true)
      (Txn.Pool.init m) s) : Run (installCondition q k) m s :=
  h.invariant (P := Run (installCondition q k) m) .refl fun _ _ _ _ hrun hstep hok =>
    .tail hrun hstep (permitted_keepsCap (Run.inv hm hrun).wf hok.1 hok.2)

-- A cap that is installed while no claim has jobs of the queue flipped, and no uncapped pass flips
-- one later, is respected in every state.
theorem cap_installed (hm : Initial m) : CapHolds q k m (keepsCap q k) := by
  intro s hs row hrow hcap
  have hinv := Run.inv hm (run_of_keepsCap hm hs)
  have hcapped : Capped (installCondition q k) s.mem q k := by
    refine capped_iff.mpr ⟨rfl, rfl, fun row' hrow' => ?_⟩
    rw [hrow, Option.some.injEq] at hrow'
    exact hrow' ▸ hcap
  have hload := (hinv.inv.caps q k hcapped).load
  have hchecks := hinv.inv.queues q row (.inl hrow)
  simp only [Queue.checks, hcap, Option.all_some, decide_eq_true_eq] at hchecks
  omega

section Example

-- Two jobs wait in queue 8, which has no cap.
def uncappedEvents : List Event :=
  whole 1 (.createQueue exampleUser none (Queue.fresh 8 0 "default")) 5 ++
  whole 2 (.enqueue exampleUser (exampleBody none []) ⟨7, 80, 9⟩) 7 ++
  whole 3 (.enqueue exampleUser (exampleBody none []) ⟨17, 80, 9⟩) 7

def installEvents : List Event := whole 5 (.updateQueue exampleUser 8 [.maxConcurrency (some 1)]) 5

-- Worker 5 has flipped job 7 when the cap is installed, and commits after worker 6 has claimed
-- under the cap.
def overlappingEvents : List Event :=
  uncappedEvents ++ whole 4 (.claimJobs (exampleClaim 5)) 4 ++ installEvents ++
    whole 6 (.claimJobs (exampleClaim 6)) 12 ++ [.run 4, .run 4]

-- Worker 5 has scanned and locked job 7 when the cap is installed, its flip comes later.
def lateFlipEvents : List Event :=
  uncappedEvents ++ whole 4 (.claimJobs (exampleClaim 5)) 3 ++ installEvents ++
    whole 6 (.claimJobs (exampleClaim 6)) 12 ++ List.replicate 3 (.run 4)

def overCap (s : State) : Bool :=
  (committedQueue s.mem 8).any (fun row => row.maxConcurrency = some 1) &&
    decide (countCommitted 8 s.mem = 2) && decide (load s.mem 8 = 2)

theorem cap_overrun : ¬ CapHolds 8 1 exampleDb (fun _ _ => true) ∧
    [overlappingEvents, lateFlipEvents].all (fun events =>
      overCap (eventsAfter (fitsCap 8 1) events)) = true := by
  refine ⟨fun h => ?_, by decide +kernel⟩
  have hover : overCap (eventsAfter (fitsCap 8 1) overlappingEvents) = true := by decide +kernel
  simp only [overCap, Bool.and_eq_true, Option.any_eq_true, decide_eq_true_eq] at hover
  obtain ⟨⟨⟨row, hrow, hcap⟩, -⟩, hload⟩ := hover
  have hle := h _ ((reaches_eventsAfter _ overlappingEvents).mono fun _ _ _ hfit => ⟨hfit, rfl⟩) row
    hrow hcap
  rw [hload] at hle
  omega

-- The cap is installed between two claims.
def separateEvents : List Event :=
  uncappedEvents ++ whole 4 (.claimJobs (exampleClaim 5)) 7 ++ installEvents ++
    whole 6 (.claimJobs (exampleClaim 6)) 7

theorem cap_installed_between :
    ((committedQueue (eventsAfter (fun s ev => fitsCap 8 1 s ev && keepsCap 8 1 s ev)
      separateEvents).mem 8).map Queue.maxConcurrency) = some (some 1) ∧
    ∀ row, committedQueue (eventsAfter (fun s ev => fitsCap 8 1 s ev && keepsCap 8 1 s ev)
        separateEvents).mem 8 = some row → row.maxConcurrency = some 1 →
      (load (eventsAfter (fun s ev => fitsCap 8 1 s ev && keepsCap 8 1 s ev)
        separateEvents).mem 8 : Int) ≤ 1 :=
  ⟨by decide +kernel, cap_installed exampleDb_initial _
    ((reaches_eventsAfter _ separateEvents).mono fun s ev _ h => by
      simpa only [Bool.and_eq_true] using h)⟩

end Example

end Chronos
