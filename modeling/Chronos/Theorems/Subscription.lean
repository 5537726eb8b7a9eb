import Chronos.Refinement.ClaimAlone

namespace Chronos

open Txn (TxId)
open JobRepository

variable {t : TxId} {a : ClaimArgs} {now : Time} {v : Snapshot} {free : Key → Bool}

-- A queue row that `a` subscribes to.
structure Subscribes (a : ClaimArgs) (q : Queue) : Prop where
  unpaused : q.paused = false
  named : q.name ∈ a.queues
  shard : ∀ s, a.shardKey = some s → q.shardKey = s

-- What the WHERE clauses of the two passes admit.
def Eligible (a : ClaimArgs) (now : Time) (v : Snapshot) (e : JobEntry) : Prop :=
  uncappedWhere a now v e = true ∨ ∃ q, v.queue e.job.queueId = some q ∧
    cappedQueueWhere a.queues q = true ∧ cappedWhere now e.job.queueId e = true

-- The copies of keys and names in the rows are right.
structure Consistent (v : Snapshot) : Prop where
  id : ∀ id e, v.job id = some e → e.job.id = id
  queue : ∀ id e q, v.job id = some e → v.queue e.job.queueId = some q → q.name = e.job.queue

-- What a transaction sees when it begins.
abbrev snapshot (t : TxId) (m : Db) : Snapshot := m.view t

def consistentRow (v : Snapshot) (id : JobId) : Bool :=
  (v.job id).all fun e => e.job.id = id ∧ (v.queue e.job.queueId).all fun q => q.name = e.job.queue

theorem consistent_of_rows {m : Db} (hwf : m.WF)
    (h : (snapshot t m).jobIds.all (consistentRow (snapshot t m)) = true) :
    Consistent (snapshot t m) := by
  have hrow : ∀ id e, (snapshot t m).job id = some e →
      e.job.id = id ∧ ∀ q, (snapshot t m).queue e.job.queueId = some q → q.name = e.job.queue := by
    intro id e he
    have hkey : Key.job id ∈ m.keys := hwf.mem_of_seen (t := t) fun hnone => by
      rw [show (snapshot t m).job id = (m.cell (.job id)).seen t from rfl, hnone] at he
      cases he
    have hid : id ∈ (snapshot t m).jobIds := List.mem_filterMap.mpr ⟨_, hkey, rfl⟩
    have hall := List.all_eq_true.mp h id hid
    simp only [consistentRow, he, Option.all_some, decide_eq_true_eq] at hall
    refine ⟨hall.1, fun q hq => ?_⟩
    simpa [hq] using hall.2
  exact ⟨fun id e he => (hrow id e he).1, fun id e q he hq => (hrow id e he).2 q hq⟩

theorem Consistent.keyable {m : Db} (hwf : m.WF) (hv : Consistent (snapshot t m)) :
    Keyable (snapshot t m) :=
  ⟨hwf.nodup, hv.id⟩

section Returned

-- A job that one of the passes admits.
def Admitted (a : ClaimArgs) (now : Time) (v : Snapshot) (job : Job) : Prop :=
  ∃ e, v.job job.id = some e ∧ job.queueId = e.job.queueId ∧ Eligible a now v e

-- A queue with a cap that the capped pass takes a job of: its row is not locked by another, some
-- due job of it is not either, its cap leaves room, and what the passes come to before it leaves
-- something of the limit.
def Reached (free : Key → Bool) (a : ClaimArgs) (now : Time) (v : Snapshot)
    (row : QueueId × Int) : Prop :=
  ∃ before after, rowsAmong free a.queues v = before ++ row :: after ∧
    shareAmong free a now v row ≠ [] ∧
    (unheld free (ready a.aging now (uncappedWhere a now v) v)).length +
      (before.flatMap (shareAmong free a now v)).length < a.limit

theorem uncappedWhere_pending {e : JobEntry} (h : uncappedWhere a now v e = true) :
    e.job.status = .pending := by
  simp only [uncappedWhere, baseFilters, Option.any_eq_true, decide_eq_true_eq] at h
  obtain ⟨q, -, hbase, -⟩ := h
  exact hbase.1

-- What a prefix of lists put one after the other holds.
theorem mem_take_flatMap {α β : Type} {f : α → List β} {rows : List α} {n : Nat} {x : β} :
    x ∈ (rows.flatMap f).take n ↔ ∃ before row after, rows = before ++ row :: after ∧
      x ∈ (f row).take (n - (before.flatMap f).length) := by
  induction rows generalizing n with
  | nil => simp
  | cons row rows ih =>
      rw [List.flatMap_cons, List.take_append, List.mem_append, ih]
      constructor
      · rintro (hx | ⟨before, r, after, rfl, hx⟩)
        · exact ⟨[], row, rows, rfl, hx⟩
        · refine ⟨row :: before, r, after, rfl, ?_⟩
          rwa [List.flatMap_cons, List.length_append, ← Nat.sub_sub]
      · rintro ⟨before, r, after, hrows, hx⟩
        cases before with
        | nil =>
            obtain ⟨rfl, rfl⟩ := List.cons.inj hrows
            exact .inl hx
        | cons b before =>
            obtain ⟨rfl, rfl⟩ := List.cons.inj hrows
            rw [List.flatMap_cons, List.length_append, ← Nat.sub_sub] at hx
            exact .inr ⟨before, r, after, rfl, hx⟩

theorem uncapped_of_unheld {p : JobId × JobEntry}
    (hp : p ∈ unheld free (ready a.aging now (uncappedWhere a now v) v)) :
    v.job p.1 = some p.2 ∧ uncappedWhere a now v p.2 = true :=
  (mem_ready.mp (free_of_unheld hp).1).2

-- Where a returned job comes from.
theorem mem_passAmong_take {p : JobId × JobEntry} (hp : p ∈ (passAmong free a now v).take a.limit) :
    p ∈ unheld free (ready a.aging now (uncappedWhere a now v) v) ∨
      ∃ row, Reached free a now v row ∧ p ∈ shareAmong free a now v row := by
  rw [passAmong, List.take_append, List.mem_append] at hp
  rcases hp with hp | hp
  · exact .inl (List.mem_of_mem_take hp)
  · obtain ⟨before, row, after, hrows, hp⟩ := mem_take_flatMap.mp hp
    have hpos := List.length_pos_of_mem hp
    rw [List.length_take] at hpos
    have hshare := List.mem_of_mem_take hp
    exact .inr ⟨row, ⟨before, after, hrows, List.ne_nil_of_mem hshare, by omega⟩, hshare⟩

-- A queue that the pass reaches has a job returned.
theorem Reached.job {row : QueueId × Int} (h : Reached free a now v row) :
    ∃ p ∈ (passAmong free a now v).take a.limit, p ∈ shareAmong free a now v row := by
  obtain ⟨before, after, hrows, hne, hlimit⟩ := h
  obtain ⟨p, rest, hshare⟩ := List.exists_cons_of_ne_nil hne
  refine ⟨p, ?_, hshare ▸ List.mem_cons_self⟩
  rw [passAmong, List.take_append, List.mem_append]
  refine .inr (mem_take_flatMap.mpr ⟨before, row, after, hrows, ?_⟩)
  obtain ⟨k, hk⟩ := Nat.exists_eq_add_of_lt hlimit
  have hleft : a.limit - (unheld free (ready a.aging now (uncappedWhere a now v) v)).length -
      (before.flatMap (shareAmong free a now v)).length = k + 1 := by omega
  rw [hleft, hshare, List.take_succ_cons]
  exact List.mem_cons_self

theorem mem_rowsAmong {queues : List String} {row : QueueId × Int}
    (h : row ∈ rowsAmong free queues v) :
    ∃ q, v.queue row.1 = some q ∧ cappedQueueWhere queues q = true := by
  obtain ⟨q, hq, -, hwhere⟩ := mem_cappedRows (List.mem_of_mem_filter h)
  exact ⟨q, hq, hwhere⟩

theorem Reached.queue {row : QueueId × Int} (h : Reached free a now v row) :
    ∃ q, v.queue row.1 = some q ∧ cappedQueueWhere a.queues q = true := by
  obtain ⟨before, after, hrows, -, -⟩ := h
  exact mem_rowsAmong (hrows ▸ List.mem_append_right before List.mem_cons_self)

theorem admitted_of_mem (hv : Keyable v) {p : JobId × JobEntry}
    (hp : p ∈ (passAmong free a now v).take a.limit) : Admitted a now v (handedOut a now p) := by
  rcases mem_passAmong_take hp with hp | ⟨row, hrow, hp⟩
  · obtain ⟨hjob, hwhere⟩ := uncapped_of_unheld hp
    exact ⟨p.2, (hv.id _ _ hjob).symm ▸ hjob, rfl, .inl hwhere⟩
  · obtain ⟨hjob, hwhere⟩ := mem_shareAmong hp
    have hqueue := queue_of_shareAmong hp
    obtain ⟨q, hq, hcapped⟩ := hrow.queue
    refine ⟨p.2, (hv.id _ _ hjob).symm ▸ hjob, rfl, .inr ⟨q, hqueue.symm ▸ hq, hcapped, ?_⟩⟩
    exact hqueue.symm ▸ hwhere

-- The uncapped pass keeps to the subscription.
theorem subscribes_of_uncapped (hv : Consistent v) {id : JobId} {e : JobEntry}
    (he : v.job id = some e) (h : uncappedWhere a now v e = true) :
    ∃ q, v.queue e.job.queueId = some q ∧ Subscribes a q := by
  simp only [uncappedWhere, baseFilters, Option.any_eq_true, decide_eq_true_eq] at h
  obtain ⟨q, hq, ⟨-, -, hname, hpaused, -, hshard⟩, -⟩ := h
  refine ⟨q, hq, hpaused, hv.queue id e q he hq ▸ hname, fun s hs => ?_⟩
  simpa [hs] using hshard

-- All returned jobs are of subscribed queues exactly if the shards of the queues agree that the
-- capped pass reaches.
theorem returned_subscribes (hv : Consistent v) :
    (∀ p ∈ (passAmong free a now v).take a.limit,
        ∃ q, v.queue p.2.job.queueId = some q ∧ Subscribes a q) ↔
      ∀ s, a.shardKey = some s → ∀ row q, Reached free a now v row → v.queue row.1 = some q →
        q.shardKey = s := by
  constructor
  · intro h s hs row q hrow hq
    obtain ⟨p, hp, hshare⟩ := hrow.job
    obtain ⟨q', hq', hsub⟩ := h p hp
    rw [queue_of_shareAmong hshare, hq, Option.some.injEq] at hq'
    exact hq' ▸ hsub.shard s hs
  · intro h p hp
    rcases mem_passAmong_take hp with hp | ⟨row, hrow, hp⟩
    · obtain ⟨hjob, hwhere⟩ := uncapped_of_unheld hp
      exact subscribes_of_uncapped hv hjob hwhere
    · obtain ⟨q, hq, hwhere⟩ := hrow.queue
      rw [queue_of_shareAmong hp]
      simp only [cappedQueueWhere, decide_eq_true_eq] at hwhere
      exact ⟨q, hq, hwhere.2.1, hwhere.1, fun s hs => h s hs row q hrow hq⟩

end Returned

section Eligibility

-- The snapshot after the queue was given the cap `k`.
def Snapshot.withCap (v : Snapshot) (id : QueueId) (q : Queue) (k : Int) : Snapshot :=
  { v with row := Function.update v.row (.queue id) (some { q with maxConcurrency := some k }) }

@[simp] theorem withCap_job (v : Snapshot) (id : QueueId) (q : Queue) (k : Int) (j : JobId) :
    (v.withCap id q k).job j = v.job j := by
  simp [Snapshot.withCap, Snapshot.job]

@[simp] theorem withCap_self (v : Snapshot) (id : QueueId) (q : Queue) (k : Int) :
    (v.withCap id q k).queue id = some { q with maxConcurrency := some k } := by
  simp [Snapshot.withCap, Snapshot.queue]

theorem withCap_ne (v : Snapshot) {id i : QueueId} (q : Queue) (k : Int) (h : i ≠ id) :
    (v.withCap id q k).queue i = v.queue i := by
  simp [Snapshot.withCap, Snapshot.queue, h]

@[simp] theorem withCap_unmetDep (v : Snapshot) (id : QueueId) (q : Queue) (k : Int)
    (e : JobEntry) : unmetDep (v.withCap id q k) e = unmetDep v e := by
  simp [unmetDep]

-- A due job of a queue that the capped pass takes jobs of.
structure CappedDue (a : ClaimArgs) (now : Time) (e : JobEntry) (q : Queue) : Prop where
  pending : e.job.status = .pending
  due : e.job.runAt ≤ now
  unpaused : q.paused = false
  named : q.name ∈ a.queues

theorem eligible_uncapped {e : JobEntry} {q : Queue} (hq : v.queue e.job.queueId = some q)
    (hcap : q.maxConcurrency = none) :
    Eligible a now v e ↔ baseFilters a now v e q = true := by
  simp [Eligible, uncappedWhere, cappedQueueWhere, hq, hcap]

theorem eligible_capped {e : JobEntry} {q : Queue} (hq : v.queue e.job.queueId = some q)
    (hcap : q.maxConcurrency.isSome = true) : Eligible a now v e ↔ CappedDue a now e q := by
  have hnone : q.maxConcurrency ≠ none := by
    intro h
    simp [h] at hcap
  constructor
  · rintro (h | ⟨q', hq', hwhere, hjob⟩)
    · simp [uncappedWhere, hq, hnone] at h
    · obtain rfl : q' = q := Option.some.inj (hq'.symm.trans hq)
      simp only [cappedQueueWhere, cappedWhere, decide_eq_true_eq] at hwhere hjob
      exact ⟨hjob.1, hjob.2.1, hwhere.2.1, hwhere.1⟩
  · intro h
    refine .inr ⟨q, hq, ?_, ?_⟩
    · simp [cappedQueueWhere, h.named, h.unpaused, hcap]
    · simp [cappedWhere, h.pending, h.due]

-- What a cap put on an uncapped queue adds are the jobs that only the shard or a dependency
-- kept from being claimed.
theorem eligible_withCap (hv : Consistent v) {id : QueueId} {q : Queue}
    (hq : v.queue id = some q) (hcap : q.maxConcurrency = none) (k : Int) :
    (∀ j e, v.job j = some e → Eligible a now (v.withCap id q k) e → Eligible a now v e) ↔
      ∀ j e, v.job j = some e → e.job.queueId = id → CappedDue a now e q →
        unmetDep v e = false ∧ ∀ s, a.shardKey = some s → q.shardKey = s := by
  have hself : ∀ e, e.job.queueId = id →
      (Eligible a now (v.withCap id q k) e ↔ CappedDue a now e q) := by
    intro e he
    have hq' : (v.withCap id q k).queue e.job.queueId =
        some { q with maxConcurrency := some k } := by rw [he, withCap_self]
    rw [eligible_capped hq' rfl]
    exact ⟨fun h => ⟨h.pending, h.due, h.unpaused, h.named⟩,
      fun h => ⟨h.pending, h.due, h.unpaused, h.named⟩⟩
  constructor
  · intro h j e hj hid hdue
    have hbase := (eligible_uncapped (hid ▸ hq) hcap).mp (h j e hj ((hself e hid).mpr hdue))
    simp only [baseFilters, decide_eq_true_eq] at hbase
    obtain ⟨-, -, -, -, hdeps, hshard⟩ := hbase
    exact ⟨hdeps, fun s hs => by simpa [hs] using hshard⟩
  · intro h j e hj helig
    by_cases hid : e.job.queueId = id
    · have hdue := (hself e hid).mp helig
      obtain ⟨hdeps, hshard⟩ := h j e hj hid hdue
      refine (eligible_uncapped (hid ▸ hq) hcap).mpr ?_
      have hname : e.job.queue ∈ a.queues := hv.queue j e q hj (hid ▸ hq) ▸ hdue.named
      have hall : a.shardKey.all (fun s => q.shardKey = s) = true := by
        cases hs : a.shardKey with
        | none => rfl
        | some s => simp [hshard s hs]
      simp [baseFilters, hdue.pending, hdue.due, hdue.unpaused, hname, hdeps, hall]
    · have hsame := withCap_ne v q k hid
      simpa [Eligible, uncappedWhere, baseFilters, hsame] using helig

end Eligibility

-- What a claim returns, whatever other transactions hold: jobs that one of the passes admits. They
-- all belong to subscribed queues exactly if the queues that the capped pass reaches are of the
-- shard, and a cap admits no new job exactly if shard and dependencies admit all.
theorem claim_subscription (t : TxId) (a : ClaimArgs) (now : Time) {m : Db} (hwf : m.WF)
    (hv : Consistent (snapshot t m)) :
    (∃ jobs m', (claimBatch t a now).run t m = some (jobs, m') ∧
      (∀ job ∈ jobs, Admitted a now (snapshot t m) job) ∧
      ((∀ job ∈ jobs, ∃ q, (snapshot t m).queue job.queueId = some q ∧ Subscribes a q) ↔
        ∀ s, a.shardKey = some s → ∀ row q,
          Reached (fun k => (m.cell k).freeFor t) a now (snapshot t m) row →
          (snapshot t m).queue row.1 = some q → q.shardKey = s)) ∧
    ∀ id q k, (snapshot t m).queue id = some q → q.maxConcurrency = none →
      ((∀ j e, (snapshot t m).job j = some e → Eligible a now ((snapshot t m).withCap id q k) e →
          Eligible a now (snapshot t m) e) ↔
        ∀ j e, (snapshot t m).job j = some e → e.job.queueId = id → CappedDue a now e q →
          unmetDep (snapshot t m) e = false ∧ ∀ s, a.shardKey = some s → q.shardKey = s) := by
  have hkeys := hv.keyable hwf
  obtain ⟨jobs, m', hrun, rfl, -⟩ : ∃ jobs m', (claimBatch t a now).run t m = some (jobs, m') ∧
      jobs = _ ∧ _ := runs_claimAmong hkeys m (.of_wf hwf t)
  refine ⟨⟨_, m', hrun, fun job hjob => ?_, ?_⟩, fun _ _ k hq hcap => eligible_withCap hv hq hcap k⟩
  · obtain ⟨p, hp, rfl⟩ := List.mem_map.mp hjob
    exact admitted_of_mem hkeys hp
  · rw [List.forall_mem_map]
    exact returned_subscribes hv

-- A queue of shard 1 with a cap, and a job in it.
def shardedEvents : List Event :=
  whole 1 (.createQueue exampleUser none
    { Queue.fresh 8 0 "default" with shardKey := 1, maxConcurrency := some 1 }) 5 ++
    whole 2 (.enqueue exampleUser (exampleBody none []) ⟨7, 9, 9⟩) 7

def shardedClaim : ClaimArgs := { exampleClaim 5 with shardKey := some 0 }

theorem claim_subscription_sharded :
    ∃ row q, Reached (fun k => ((stateAfter shardedEvents).mem.cell k).freeFor 3) shardedClaim 0
        (snapshot 3 (stateAfter shardedEvents).mem) row ∧
      (snapshot 3 (stateAfter shardedEvents).mem).queue row.1 = some q ∧ q.shardKey ≠ 0 := by
  have hwf := (Run.inv exampleDb_initial (run_of_reachable (reachable_stateAfter shardedEvents))).wf
  obtain ⟨⟨jobs, m', hjobs, -, hiff⟩, -⟩ := claim_subscription 3 shardedClaim 0 hwf
    (consistent_of_rows hwf (by decide +kernel))
  have hrun : ((claimBatch 3 shardedClaim 0).run 3 (stateAfter shardedEvents).mem).map
      (fun r => r.1.map Job.queueId) = some [8] := by decide +kernel
  have hshard : ((snapshot 3 (stateAfter shardedEvents).mem).queue 8).map Queue.shardKey = some 1 := by
    decide +kernel
  rw [hjobs, Option.map_some, Option.some.injEq] at hrun
  by_contra hnone
  simp only [not_exists, not_and, not_not] at hnone
  obtain ⟨job, hjob, hqueue⟩ := List.mem_map.mp (hrun.symm ▸ List.mem_singleton_self (8 : QueueId))
  obtain ⟨q, hq, hsub⟩ := hiff.mpr (fun s hs row q hrow hq => by
    rw [hnone row q hrow hq]
    exact Option.some.inj hs) job hjob
  rw [← hqueue, hq, Option.map_some, Option.some.injEq, hsub.shard 0 rfl] at hshard
  cases hshard

-- A worker of shard 0 is handed a job of shard 1.
theorem capped_pass_ignores_shard :
    ((claimBatch 3 shardedClaim 0).run 3 (stateAfter shardedEvents).mem).map
        (fun r => r.1.map fun job => (job.id, job.queueId)) = some [(7, 8)] ∧
      ((snapshot 3 (stateAfter shardedEvents).mem).queue 8).map Queue.shardKey = some 1 ∧
      shardedClaim.shardKey = some 0 := by
  decide +kernel

end Chronos
