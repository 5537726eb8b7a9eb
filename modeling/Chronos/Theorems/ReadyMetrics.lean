import Chronos.Repositories.Stats
import Chronos.Theorems.ClaimOrder

namespace Chronos

open Txn (TxId Settled)
open JobRepository

variable {t : TxId} {a : ClaimArgs} {now : Time} {v : Snapshot} {select : JobEntry → Bool}

-- A worker without a shard that subscribes to every queue named by a job or a queue row.
structure SubscribesAll (a : ClaimArgs) (v : Snapshot) : Prop where
  shard : a.shardKey = none
  jobs : ∀ id e, v.job id = some e → e.job.queue ∈ a.queues
  queues : ∀ id q, v.queue id = some q → q.name ∈ a.queues

-- A job that one of the passes of its claim admits.
def selectable (a : ClaimArgs) (now : Time) (v : Snapshot) (e : JobEntry) : Bool :=
  uncappedWhere a now v e || (v.queue e.job.queueId).any fun q =>
    cappedQueueWhere a.queues q && cappedWhere now e.job.queueId e

def inUnpausedQueue (v : Snapshot) (e : JobEntry) : Bool :=
  (v.queue e.job.queueId).any fun q => q.paused = false

def inUncappedQueue (v : Snapshot) (e : JobEntry) : Bool :=
  (v.queue e.job.queueId).any fun q => q.maxConcurrency = none

def prerequisitesSucceeded (v : Snapshot) (e : JobEntry) : Bool :=
  e.dependsOn.all fun d => (v.job d).any fun dep => dep.job.status = .succeeded

-- PENDING, due, its queue not paused, all prerequisites SUCCEEDED.
def claimable (now : Time) (v : Snapshot) (e : JobEntry) : Bool :=
  readyWhere now e ∧ inUnpausedQueue v e ∧ prerequisitesSucceeded v e

-- The metrics range over the jobs selected, and are 0 where there are none.
structure MetricsAgree (select : JobEntry → Bool) (now : Time) (v : Snapshot) : Prop where
  range : v.jobsWhere (readyWhere now) = v.jobsWhere select
  ready : (readyAndScheduledCounts now v).1 = (v.jobsWhere select).length
  oldest : oldestReadyAgeSeconds now v = oldestAge now (v.jobsWhere select)
  idle : v.jobsWhere select = [] → oldestReadyAgeSeconds now v = 0

-- The limit and the caps let the claim come to every job its passes admit.
structure Roomy (a : ClaimArgs) (now : Time) (v : Snapshot) : Prop where
  limit : (passOrder a now v).length ≤ a.limit
  caps : ∀ row ∈ cappedRows a.queues v,
    ((ready a.aging now (cappedWhere now row.1) v).length : Int) ≤ row.2 - countRunning row.1 v

theorem selectable_iff {e : JobEntry} : selectable a now v e = true ↔ Eligible a now v e := by
  simp only [selectable, Eligible, Bool.or_eq_true, Option.any_eq_true, Bool.and_eq_true]

theorem metricsAgree_iff (hselect : ∀ id e, v.job id = some e → select e = true →
    readyWhere now e = true) :
    MetricsAgree select now v ↔ ∀ p ∈ v.jobsWhere (readyWhere now), select p.2 = true := by
  constructor
  · intro h p hp
    rw [h.range] at hp
    exact (mem_jobsWhere.mp hp).2.2
  · intro h
    have hrange : v.jobsWhere (readyWhere now) = v.jobsWhere select := by
      unfold Snapshot.jobsWhere
      refine List.filterMap_congr fun id hid => ?_
      cases he : v.job id with
      | none => rfl
      | some e =>
          have hsame : readyWhere now e = select e := by
            rw [Bool.eq_iff_iff]
            refine ⟨fun hready => h (id, e) ?_, hselect id e he⟩
            exact mem_jobsWhere.mpr ⟨mem_jobIds.mp hid, he, hready⟩
          simp only [Option.bind_some, hsame]
    refine ⟨hrange, congrArg List.length hrange, congrArg (oldestAge now) hrange, fun hnone => ?_⟩
    rw [oldestReadyAgeSeconds, hrange, hnone]
    rfl

theorem selectable_ready {e : JobEntry} (h : selectable a now v e = true) :
    readyWhere now e = true := by
  rw [selectable_iff] at h
  rw [readyWhere, decide_eq_true_eq]
  rcases h with h | ⟨q, -, -, h⟩
  · simp only [uncappedWhere, baseFilters, Option.any_eq_true, decide_eq_true_eq] at h
    obtain ⟨q, -, hbase, -⟩ := h
    exact ⟨hbase.1, hbase.2.1⟩
  · simp only [cappedWhere, decide_eq_true_eq] at h
    exact ⟨h.1, h.2.1⟩

-- What the claim asks of a job beyond being ready.
theorem selectable_iff_of_ready (ha : SubscribesAll a v) {id : JobId} {e : JobEntry}
    (he : v.job id = some e) (hready : readyWhere now e = true) :
    selectable a now v e = true ↔
      inUnpausedQueue v e = true ∧ (inUncappedQueue v e = true → unmetDep v e = false) := by
  rw [selectable_iff]
  rw [readyWhere, decide_eq_true_eq] at hready
  cases hq : v.queue e.job.queueId with
  | none => simp [Eligible, uncappedWhere, inUnpausedQueue, hq]
  | some q =>
      have hname := ha.queues _ q hq
      have hjob := ha.jobs id e he
      by_cases hcap : q.maxConcurrency = none
      · rw [eligible_uncapped hq hcap]
        simp [baseFilters, inUnpausedQueue, inUncappedQueue, hq, hcap, hready, hjob, ha.shard]
      · have hsome : q.maxConcurrency.isSome = true := Option.isSome_iff_ne_none.mpr hcap
        rw [eligible_capped hq hsome]
        simp only [inUnpausedQueue, inUncappedQueue, hq, Option.any_some, decide_eq_true_eq, hcap,
          false_implies, and_true]
        exact ⟨fun h => h.unpaused, fun h => ⟨hready.1, hready.2, h, hname⟩⟩

-- Given room, a claim made alone hands out every job that its passes admit.
theorem roomy_claim (hv : Keyable v) (hroom : Roomy a now v) {m : Db} (hm : Settled v now m) :
    ∃ jobs m', (claimBatch t a now).run t m = some (jobs, m') ∧
      ∀ id, id ∈ jobs.map (·.id) ↔ ∃ e, v.job id = some e ∧ selectable a now v e = true := by
  obtain ⟨jobs, m', hrun, hjobs, -⟩ := runs_claimBatch (a := a) hv m (hm.sees t)
  have hlisted : ∀ k, v.row k ≠ none → k ∈ v.keys := fun k hk =>
    (hm.sees t).mem_keys (Option.ne_none_iff_exists'.mp hk).choose_spec
  refine ⟨jobs, m', hrun, fun id => ?_⟩
  have hids : jobs.map (·.id) = (passOrder a now v).map Prod.fst := by
    rw [hjobs, List.take_of_length_le hroom.limit, List.map_map]
    refine List.map_congr_left fun p hp => ?_
    exact hv.id p.1 p.2 (of_mem_passOrder hp).2.1
  rw [hids, List.mem_map]
  constructor
  · rintro ⟨p, hp, rfl⟩
    obtain ⟨-, hjob, -, helig⟩ := of_mem_passOrder hp
    exact ⟨p.2, hjob, selectable_iff.mpr helig⟩
  · rintro ⟨e, he, helig⟩
    rw [selectable_iff] at helig
    have hkey : Key.job id ∈ v.keys :=
      hlisted _ fun hnone => Option.some_ne_none _ (he.symm.trans hnone)
    refine ⟨(id, e), ?_, rfl⟩
    rcases helig with hwhere | ⟨queue, hqueue, hqueues, hwhere⟩
    · exact List.mem_append_left _ (mem_ready.mpr ⟨hkey, he, hwhere⟩)
    · obtain ⟨cap, -, hrow⟩ := cappedRow_of_queue hlisted hqueue hqueues
      refine List.mem_append_right _ (List.mem_flatMap.mpr ⟨_, hrow, ?_⟩)
      have hcap := hroom.caps _ hrow
      rw [share, List.take_of_length_le (by omega)]
      exact mem_ready.mpr ⟨hkey, he, hwhere⟩

-- The jobs that a worker subscribed to all queues is handed, given room, are those selected. The
-- ready metrics range over them exactly if no ready job is in a paused queue or, in a queue
-- without a cap, waits for a prerequisite; over the jobs to be claimed at all exactly if no ready
-- job is in a paused queue or has a prerequisite that has not succeeded.
theorem ready_metrics (ha : SubscribesAll a v) :
    (Keyable v → Roomy a now v → ∀ m, Settled v now m →
      ∃ jobs m', (claimBatch t a now).run t m = some (jobs, m') ∧
        ∀ id, id ∈ jobs.map (·.id) ↔ ∃ e, v.job id = some e ∧ selectable a now v e = true) ∧
    (MetricsAgree (selectable a now v) now v ↔ ∀ p ∈ v.jobsWhere (readyWhere now),
      inUnpausedQueue v p.2 = true ∧ (inUncappedQueue v p.2 = true → unmetDep v p.2 = false)) ∧
    (MetricsAgree (claimable now v) now v ↔ ∀ p ∈ v.jobsWhere (readyWhere now),
      inUnpausedQueue v p.2 = true ∧ prerequisitesSucceeded v p.2 = true) := by
  refine ⟨fun hv hroom m hm => roomy_claim hv hroom hm, ?_, ?_⟩
  · rw [metricsAgree_iff fun id e _ h => selectable_ready h]
    refine forall₂_congr fun p hp => ?_
    obtain ⟨-, hjob, hready⟩ := mem_jobsWhere.mp hp
    exact selectable_iff_of_ready ha hjob hready
  · rw [metricsAgree_iff fun id e _ h => ?_]
    · refine forall₂_congr fun p hp => ?_
      simp [claimable, (mem_jobsWhere.mp hp).2.2]
    · simp only [claimable, decide_eq_true_eq] at h
      exact h.1

section Example

-- A job that has been due for ten minutes, alone in its queue.
def dueRows (paused : Bool) : List (Sigma Row) :=
  let queue : Queue := { Queue.fresh 0 0 "default" with paused := paused }
  [⟨.queue 0, queue⟩,
    ⟨.job 7, newRow 1 (JobService.buildJob 7 0 queue (exampleBody none []) none 0) []⟩]

def dueView (paused : Bool) : Snapshot := .seed (dueRows paused)

theorem subscribesAll_due (paused : Bool) : SubscribesAll (exampleClaim 5) (dueView paused) where
  shard := rfl
  jobs id e he := by
    have hmem : ⟨.job id, e⟩ ∈ dueRows paused := List.of_mem_dlookup he
    simp only [dueRows, List.mem_cons, Sigma.mk.injEq, List.not_mem_nil, or_false] at hmem
    rcases hmem with ⟨hid, -⟩ | ⟨hid, heq⟩
    · cases hid
    · obtain rfl := Key.job.inj hid
      rw [eq_of_heq heq]
      exact List.mem_singleton_self _
  queues id q hq := by
    have hmem : ⟨.queue id, q⟩ ∈ dueRows paused := List.of_mem_dlookup hq
    simp only [dueRows, List.mem_cons, Sigma.mk.injEq, List.not_mem_nil, or_false] at hmem
    rcases hmem with ⟨hid, heq⟩ | ⟨hid, -⟩
    · obtain rfl := Key.queue.inj hid
      rw [eq_of_heq heq]
      exact List.mem_singleton_self _
    · cases hid

-- The queue is paused: no job can be claimed, and one has been ready for ten minutes.
theorem paused_queue_alarms : SubscribesAll (exampleClaim 5) (dueView true) ∧
    readyAndScheduledCounts 600 (dueView true) = (1, 0) ∧
    oldestReadyAgeSeconds 600 (dueView true) = 600 ∧
    ¬ MetricsAgree (selectable (exampleClaim 5) 600 (dueView true)) 600 (dueView true) ∧
    ¬ MetricsAgree (claimable 600 (dueView true)) 600 (dueView true) := by
  have hage : oldestReadyAgeSeconds 600 (dueView true) = 600 := by decide +kernel
  refine ⟨subscribesAll_due true, by decide +kernel, hage, fun h => ?_, fun h => ?_⟩
  · have hzero := h.idle (by decide +kernel)
    rw [hage] at hzero
    norm_num at hzero
  · have hzero := h.idle (by decide +kernel)
    rw [hage] at hzero
    norm_num at hzero

theorem ready_metrics_unpaused :
    MetricsAgree (selectable (exampleClaim 5) 600 (dueView false)) 600 (dueView false) ∧
    MetricsAgree (claimable 600 (dueView false)) 600 (dueView false) ∧
    oldestReadyAgeSeconds 600 (dueView false) = 600 := by
  obtain ⟨-, hselect, hclaim⟩ := @ready_metrics 2 (exampleClaim 5) 600 _ (subscribesAll_due false)
  exact ⟨hselect.mpr (by decide +kernel), hclaim.mpr (by decide +kernel), by decide +kernel⟩

end Example

end Chronos
