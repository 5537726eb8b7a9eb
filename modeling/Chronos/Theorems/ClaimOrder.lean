import Chronos.Theorems.Subscription
import Chronos.Theorems.Aging

namespace Chronos

open Txn (TxId Runs Sees Settled)
open JobRepository

variable {t : TxId} {a : ClaimArgs} {now : Time} {v w : Snapshot}

-- The claim order is by effective priority.
theorem ready_sorted {cond : JobEntry → Bool} : (ready a.aging now cond v).Pairwise fun p q =>
    priorityKey a.aging now q.2.job ≤ priorityKey a.aging now p.2.job := by
  have htotal : Std.Total fun p q : JobId × JobEntry =>
      claimsBefore a.aging now p.2.job q.2.job = true :=
    ⟨fun p q => claimsBefore_total a.aging now p.2.job q.2.job⟩
  have htrans : IsTrans (JobId × JobEntry) fun p q =>
      claimsBefore a.aging now p.2.job q.2.job = true := ⟨fun _ _ _ => claimsBefore_trans⟩
  refine (List.pairwise_insertionSort _ (v.jobsWhere cond)).imp fun {p q} h => ?_
  rcases claimsBefore_iff.mp h with hlt | ⟨heq, -⟩
  · exact hlt.le
  · exact heq.ge

section Counts

variable {rows : List (JobId × JobEntry)}

theorem countP_change {A : Type} [DecidableEq A] {l : List A} (hl : l.Nodup) {x : A} (hx : x ∈ l)
    {f g : A → Bool} (hsame : ∀ y, y ≠ x → f y = g y) (hf : f x = false) :
    l.countP g = l.countP f + if g x then 1 else 0 := by
  have hperm := List.perm_cons_erase hx
  have hrest : (l.erase x).countP g = (l.erase x).countP f := by
    refine List.countP_congr fun y hy => ?_
    rw [hsame y (hl.mem_erase_iff.mp hy).1]
  rw [hperm.countP_eq g, hperm.countP_eq f, List.countP_cons, List.countP_cons, hrest, hf]
  simp

-- The rows as the snapshot has them, each once, and pending.
structure Claimable (v : Snapshot) (rows : List (JobId × JobEntry)) : Prop where
  key : ∀ p ∈ rows, Key.job p.1 ∈ v.keys
  row : ∀ p ∈ rows, v.job p.1 = some p.2
  pending : ∀ p ∈ rows, p.2.job.status = .pending
  nodup : (rows.map Prod.fst).Nodup

theorem Claimable.tail {p : JobId × JobEntry} (h : Claimable v (p :: rows)) (e : JobEntry) :
    Claimable (v.put (.job p.1) e) rows where
  key q hq := h.key q (List.mem_cons_of_mem _ hq)
  row q hq := by
    have hnodup := h.nodup
    rw [List.map_cons, List.nodup_cons] at hnodup
    have hne : Key.job q.1 ≠ Key.job p.1 := fun heq =>
      hnodup.1 (Key.job.inj heq ▸ List.mem_map_of_mem hq)
    exact (Txn.View.put_row_ne e v hne).trans (h.row q (List.mem_cons_of_mem _ hq))
  pending q hq := h.pending q (List.mem_cons_of_mem _ hq)
  nodup := (List.nodup_cons.mp h.nodup).2

theorem Claimable.left {more : List (JobId × JobEntry)} (h : Claimable v (rows ++ more)) :
    Claimable v rows where
  key p hp := h.key p (List.mem_append_left _ hp)
  row p hp := h.row p (List.mem_append_left _ hp)
  pending p hp := h.pending p (List.mem_append_left _ hp)
  nodup := (List.nodup_append.mp (List.map_append ▸ h.nodup)).1

theorem Claimable.right {pass : Pass} {more : List (JobId × JobEntry)}
    (h : Claimable v (rows ++ more)) : Claimable (v.claim t a now pass rows) more := by
  induction rows generalizing v with
  | nil => exact h
  | cons p rows ih => exact ih (h.tail _)

-- A claim adds the claimed jobs of the queue to those that run.
theorem countRunning_claim {pass : Pass} (hkeys : v.keys.Nodup) (h : Claimable v rows)
    (q : QueueId) : countRunning q (v.claim t a now pass rows) =
      countRunning q v + (rows.filter fun p => p.2.job.queueId = q).length := by
  induction rows generalizing v with
  | nil => simp [Snapshot.claim]
  | cons p rows ih =>
      let v' : Snapshot := v.put (.job p.1) (p.2.claim t a.workerId a.leaseSeconds now pass)
      have hself : v'.job p.1 = some (p.2.claim t a.workerId a.leaseSeconds now pass) :=
        Txn.View.put_row_self _ _ v
      have hother : ∀ id, id ≠ p.1 → v'.job id = v.job id := fun id hid =>
        Txn.View.put_row_ne _ v (by simpa using hid)
      have hfirst : countRunning q v' =
          countRunning q v + if p.2.job.queueId = q then 1 else 0 := by
        have hmem : p.1 ∈ v.jobIds :=
          List.mem_filterMap.mpr ⟨_, h.key p List.mem_cons_self, rfl⟩
        let running (e : JobEntry) : Bool := e.job.queueId = q ∧ e.job.status = .running
        have hbefore : (v.job p.1).any running = false := by
          rw [h.row p List.mem_cons_self]
          simp [running, h.pending p List.mem_cons_self]
        have hafter : (v'.job p.1).any running = decide (p.2.job.queueId = q) := by
          rw [hself]
          simp [running, JobEntry.claim, JobEntry.amend, claimValues]
        have hchange : (v'.jobIds.countP fun id => (v'.job id).any running) =
            (v.jobIds.countP fun id => (v.job id).any running) +
              if (v'.job p.1).any running then 1 else 0 :=
          countP_change (nodup_jobIds hkeys) hmem (fun id hid => by rw [hother id hid]) hbefore
        unfold countRunning
        rw [length_jobsWhere, length_jobsWhere]
        refine (congrArg Nat.cast hchange).trans ?_
        rw [hafter]
        by_cases hq : p.2.job.queueId = q
        · simp [hq, running]
        · simp [hq, running]
      show countRunning q (v'.claim t a now pass rows) = _
      rw [ih (v := v') hkeys (h.tail _), hfirst, List.filter_cons]
      by_cases hq : p.2.job.queueId = q
      · simp only [hq, if_true, decide_true, List.length_cons]
        push_cast
        ring
      · simp [hq]

end Counts

section Order

variable {p q : JobId × JobEntry} {row : QueueId × Int}

theorem cappedWhere_pending {id : QueueId} {e : JobEntry} (h : cappedWhere now id e = true) :
    e.job.status = .pending := by
  simp only [cappedWhere, decide_eq_true_eq] at h
  exact h.1

-- Whatever the passes come to may be claimed.
theorem of_mem_passOrder (hp : p ∈ passOrder a now v) :
    Key.job p.1 ∈ v.keys ∧ v.job p.1 = some p.2 ∧ p.2.job.status = .pending ∧
      Eligible a now v p.2 := by
  rcases List.mem_append.mp hp with hp | hp
  · obtain ⟨hkey, hjob, hwhere⟩ := mem_ready.mp hp
    exact ⟨hkey, hjob, uncappedWhere_pending hwhere, .inl hwhere⟩
  · obtain ⟨row, hrow, hp⟩ := List.mem_flatMap.mp hp
    obtain ⟨hkey, hjob, hwhere⟩ := mem_ready.mp (List.mem_of_mem_take hp)
    obtain ⟨q, hq, -, hcapped⟩ := mem_cappedRows hrow
    have hid := queue_of_share hp
    exact ⟨hkey, hjob, cappedWhere_pending hwhere, .inr ⟨q, hid ▸ hq, hcapped, hid ▸ hwhere⟩⟩

theorem nodup_passOrder (hv : Keyable v) : ((passOrder a now v).map Prod.fst).Nodup := by
  have hshare (row : QueueId × Int) : ((share a now v row).map Prod.fst).Nodup :=
    ((List.take_sublist _ _).map Prod.fst).nodup (nodup_ready hv.nodup)
  have hshares : ∀ rows : List (QueueId × Int), (rows.map Prod.fst).Nodup →
      ((rows.flatMap (share a now v)).map Prod.fst).Nodup := by
    intro rows
    induction rows with
    | nil => exact fun _ => List.nodup_nil
    | cons row rows ih =>
        intro hrows
        rw [List.map_cons, List.nodup_cons] at hrows
        rw [List.flatMap_cons, List.map_append]
        refine (hshare row).append (ih hrows.2) fun id hid hid' => ?_
        obtain ⟨p, hp, rfl⟩ := List.mem_map.mp hid
        obtain ⟨p', hp', heq⟩ := List.mem_map.mp hid'
        obtain ⟨row', hrow', hp'⟩ := List.mem_flatMap.mp hp'
        have hsame : p'.2 = p.2 :=
          Option.some.inj ((mem_share hp').1.symm.trans (heq ▸ (mem_share hp).1))
        have hq : row.1 = row'.1 :=
          (queue_of_share hp).symm.trans (hsame ▸ queue_of_share hp')
        exact hrows.1 (hq ▸ List.mem_map_of_mem hrow')
  rw [passOrder, List.map_append]
  refine (nodup_ready hv.nodup).append (hshares _ (nodup_cappedRows hv _)) fun id hid hid' => ?_
  obtain ⟨p, hp, rfl⟩ := List.mem_map.mp hid
  obtain ⟨p', hp', heq⟩ := List.mem_map.mp hid'
  obtain ⟨row, hrow, hp'⟩ := List.mem_flatMap.mp hp'
  have hsame : p'.2 = p.2 :=
    Option.some.inj ((mem_share hp').1.symm.trans (heq ▸ (mem_ready.mp hp).2.1))
  exact ready_other_queue hp hrow (hsame ▸ queue_of_share hp')

-- The jobs of a capped queue that the passes come to are its share.
theorem filter_passOrder (hv : Keyable v) (hrow : row ∈ cappedRows a.queues v) :
    ((passOrder a now v).filter fun p => p.2.job.queueId = row.1) = share a now v row := by
  have hself : ((share a now v row).filter fun p => p.2.job.queueId = row.1) =
      share a now v row := by
    rw [List.filter_eq_self]
    exact fun p hp => by simp [queue_of_share hp]
  have hother : ∀ rows : List (QueueId × Int), row.1 ∉ rows.map Prod.fst →
      ((rows.flatMap (share a now v)).filter fun p => p.2.job.queueId = row.1) = [] := by
    intro rows hrows
    rw [List.filter_eq_nil_iff]
    intro p hp
    obtain ⟨row', hrow', hp⟩ := List.mem_flatMap.mp hp
    have hne : row'.1 ≠ row.1 := fun heq => hrows (heq ▸ List.mem_map_of_mem hrow')
    simpa [queue_of_share hp] using hne
  have hshares : ∀ rows : List (QueueId × Int), (rows.map Prod.fst).Nodup → row ∈ rows →
      ((rows.flatMap (share a now v)).filter fun p => p.2.job.queueId = row.1) =
        share a now v row := by
    intro rows
    induction rows with
    | nil => exact fun _ hmem => absurd hmem List.not_mem_nil
    | cons row' rows ih =>
        intro hrows hmem
        rw [List.map_cons, List.nodup_cons] at hrows
        rw [List.flatMap_cons, List.filter_append]
        rcases List.mem_cons.mp hmem with rfl | hmem
        · rw [hself, hother rows hrows.1, List.append_nil]
        · have hne : row'.1 ≠ row.1 := fun heq => hrows.1 (heq ▸ List.mem_map_of_mem hmem)
          have hnone := hother [row'] (by simpa using hne.symm)
          rw [List.flatMap_singleton] at hnone
          rw [hnone, List.nil_append, ih hrows.2 hmem]
  rw [passOrder, List.filter_append, hshares _ (nodup_cappedRows hv _) hrow]
  have huncapped : ((ready a.aging now (uncappedWhere a now v) v).filter
      fun p => p.2.job.queueId = row.1) = [] := by
    rw [List.filter_eq_nil_iff]
    intro p hp
    simpa using ready_other_queue hp hrow
  rw [huncapped, List.nil_append]

-- What a claim leaves of the rows: the first jobs of the order run, everything else is as before.
theorem claimable_take (hv : Keyable v) : Claimable v ((passOrder a now v).take a.limit) where
  key _ hp := (of_mem_passOrder (List.mem_of_mem_take hp)).1
  row _ hp := (of_mem_passOrder (List.mem_of_mem_take hp)).2.1
  pending _ hp := (of_mem_passOrder (List.mem_of_mem_take hp)).2.2.1
  nodup := ((List.take_sublist _ _).map Prod.fst).nodup (nodup_passOrder hv)

theorem take_passOrder : (passOrder a now v).take a.limit =
    (ready a.aging now (uncappedWhere a now v) v).take a.limit ++
      ((cappedRows a.queues v).flatMap (share a now v)).take
        (a.limit - (ready a.aging now (uncappedWhere a now v) v).length) :=
  List.take_append

theorem afterClaim_queue (id : QueueId) : (afterClaim t a now v).queue id = v.queue id :=
  (claim_queue id).trans (claim_queue id)

theorem afterClaim_other {id : JobId} (h : id ∉ ((passOrder a now v).take a.limit).map Prod.fst) :
    (afterClaim t a now v).job id = v.job id := by
  rw [take_passOrder, List.map_append, List.mem_append, not_or] at h
  have hne {rows : List (JobId × JobEntry)} (hid : id ∉ rows.map Prod.fst) :
      ∀ p ∈ rows, Key.job id ≠ Key.job p.1 := fun p hp heq =>
    hid (Key.job.inj heq ▸ List.mem_map_of_mem hp)
  exact (claim_row_ne (hne h.2)).trans (claim_row_ne (hne h.1))

theorem afterClaim_running (hv : Keyable v) (q : QueueId) :
    countRunning q (afterClaim t a now v) = countRunning q v +
      (((passOrder a now v).take a.limit).filter fun p => p.2.job.queueId = q).length := by
  have hall : Claimable v ((passOrder a now v).take a.limit) := claimable_take hv
  rw [take_passOrder] at hall ⊢
  have hkeys : (v.claim t a now .uncapped
      ((ready a.aging now (uncappedWhere a now v) v).take a.limit)).keys.Nodup := by
    rw [claim_keys]
    exact hv.nodup
  rw [afterClaim, countRunning_claim hkeys hall.right, countRunning_claim hv.nodup hall.left,
    List.filter_append, List.length_append]
  push_cast
  ring

-- A queue with fewer running jobs than its cap, or none.
def HasRoom (w : Snapshot) (id : QueueId) : Prop :=
  ∃ q, w.queue id = some q ∧ ∀ cap, q.maxConcurrency = some cap → countRunning id w < cap

-- No job is handed out while one of higher effective priority is left, that one of the passes
-- would take and whose queue has room for it.
def KeepsOrder (a : ClaimArgs) (now : Time) (v : Snapshot) (jobs : List Job) (w : Snapshot) :
    Prop :=
  ∀ j ∈ jobs, ∀ id e, v.job id = some e → Eligible a now v e → w.job id = some e →
    HasRoom w e.job.queueId → priorityKey a.aging now e.job ≤ priorityKey a.aging now j

-- Where the limit cuts the order of the passes, it cuts it by priority.
def CutByPriority (a : ClaimArgs) (now : Time) (v : Snapshot) : Prop :=
  ∀ p ∈ (passOrder a now v).take a.limit, ∀ q ∈ (passOrder a now v).drop a.limit,
    priorityKey a.aging now q.2.job ≤ priorityKey a.aging now p.2.job

-- A job of the order is left exactly if it is behind the cut.
theorem afterClaim_left (hv : Keyable v) (hq : q ∈ (passOrder a now v).drop a.limit) :
    (afterClaim t a now v).job q.1 = some q.2 := by
  have hnodup : ((passOrder a now v).map Prod.fst).Nodup := nodup_passOrder hv
  rw [← List.take_append_drop a.limit (passOrder a now v), List.map_append] at hnodup
  have hnot : q.1 ∉ ((passOrder a now v).take a.limit).map Prod.fst := fun hmem =>
    List.disjoint_of_nodup_append hnodup hmem (List.mem_map_of_mem hq)
  rw [afterClaim_other hnot]
  exact (of_mem_passOrder (List.mem_of_mem_drop hq)).2.1

-- The running jobs of a queue whose share is not used up.
theorem running_of_left (hv : Keyable v) (hrow : row ∈ cappedRows a.queues v)
    (hq : q ∈ share a now v row) (hleft : q ∈ (passOrder a now v).drop a.limit) :
    countRunning row.1 (afterClaim t a now v) < row.2 := by
  have hfilter : ((passOrder a now v).filter fun p => p.2.job.queueId = row.1) =
      share a now v row := filter_passOrder hv hrow
  rw [← List.take_append_drop a.limit (passOrder a now v), List.filter_append] at hfilter
  have hlength := congrArg List.length hfilter
  rw [List.length_append] at hlength
  have hpos : 0 < (((passOrder a now v).drop a.limit).filter
      fun p => p.2.job.queueId = row.1).length := by
    refine List.length_pos_of_mem (List.mem_filter.mpr ⟨hleft, ?_⟩)
    simp [queue_of_share hq]
  have hshare : (share a now v row).length ≤ (row.2 - countRunning row.1 v).toNat :=
    List.length_take_le _ _
  rw [afterClaim_running hv]
  omega

theorem Eligible.pending {e : JobEntry} (h : Eligible a now v e) : e.job.status = .pending := by
  rcases h with hwhere | ⟨q, -, -, hwhere⟩
  · exact uncappedWhere_pending hwhere
  · exact cappedWhere_pending hwhere

-- A claimed job runs, and goes on to run.
theorem claim_running {pass : Pass} {rows : List (JobId × JobEntry)} {id : JobId}
    (h : id ∈ rows.map Prod.fst ∨ ∃ e, v.job id = some e ∧ e.job.status = .running) :
    ∃ e, (v.claim t a now pass rows).job id = some e ∧ e.job.status = .running := by
  induction rows generalizing v with
  | nil =>
      rcases h with h | h
      · cases h
      · exact h
  | cons p rows ih =>
      by_cases hid : id = p.1
      · refine ih (.inr ⟨p.2.claim t a.workerId a.leaseSeconds now pass, ?_, rfl⟩)
        exact hid ▸ Txn.View.put_row_self _ _ v
      · rcases h with h | ⟨e, he, hrunning⟩
        · exact ih (.inl ((List.mem_cons.mp h).resolve_left hid))
        · refine ih (.inr ⟨e, ?_, hrunning⟩)
          exact (Txn.View.put_row_ne _ v (by simpa using hid)).trans he

theorem afterClaim_taken {id : JobId} (h : id ∈ ((passOrder a now v).take a.limit).map Prod.fst) :
    ∃ e, (afterClaim t a now v).job id = some e ∧ e.job.status = .running := by
  rw [take_passOrder, List.map_append, List.mem_append] at h
  rcases h with h | h
  · exact claim_running (.inr (claim_running (.inl h)))
  · exact claim_running (.inl h)

-- What its capacity keeps out of the share of a queue does not outrank the share.
theorem share_full (hp : p ∈ ready a.aging now (cappedWhere now row.1) v)
    (hnot : p ∉ share a now v row) :
    (share a now v row).length = (row.2 - countRunning row.1 v).toNat ∧
      ∀ q ∈ share a now v row,
        priorityKey a.aging now p.2.job ≤ priorityKey a.aging now q.2.job := by
  have hsorted : (ready a.aging now (cappedWhere now row.1) v).Pairwise fun p q =>
      priorityKey a.aging now q.2.job ≤ priorityKey a.aging now p.2.job := ready_sorted
  have hsplit := List.take_append_drop (row.2 - countRunning row.1 v).toNat
    (ready a.aging now (cappedWhere now row.1) v)
  rw [← hsplit] at hp hsorted
  have hdrop := (List.mem_append.mp hp).resolve_left hnot
  refine ⟨?_, fun q hq => (List.pairwise_append.mp hsorted).2.2 q hq p hdrop⟩
  have hlength := List.length_pos_of_mem hdrop
  rw [List.length_drop] at hlength
  rw [share, List.length_take]
  omega

section Listed

variable (hlisted : ∀ k, v.row k ≠ none → k ∈ v.keys)
include hlisted

theorem cappedRow_of_queue {queues : List String} {id : QueueId} {queue : Queue}
    (hqueue : v.queue id = some queue) (hwhere : cappedQueueWhere queues queue = true) :
    ∃ cap, queue.maxConcurrency = some cap ∧ (id, cap) ∈ cappedRows queues v := by
  have hcapped := hwhere
  simp only [cappedQueueWhere, decide_eq_true_eq] at hcapped
  obtain ⟨cap, hcap⟩ := Option.isSome_iff_exists.mp hcapped.2.2
  refine ⟨cap, hcap, List.mem_filterMap.mpr ⟨id, ?_, ?_⟩⟩
  · rw [cappedQueues, (List.perm_insertionSort _ _).mem_iff, List.mem_filter]
    have hkey : Key.queue id ∈ v.keys :=
      hlisted _ fun hnone => Option.some_ne_none _ (hqueue.symm.trans hnone)
    refine ⟨List.mem_filterMap.mpr ⟨_, hkey, rfl⟩, ?_⟩
    rw [hqueue]
    exact hwhere
  · rw [hqueue, Option.bind_some, hcap]
    rfl

-- A job that may be claimed is in the order of the passes, or its queue is used up by jobs that
-- are, and that it does not outrank.
theorem mem_passOrder_or {id : JobId} {e : JobEntry} (he : v.job id = some e)
    (h : Eligible a now v e) : (id, e) ∈ passOrder a now v ∨
      ∃ cap, (v.queue e.job.queueId).bind Queue.maxConcurrency = some cap ∧
        (e.job.queueId, cap) ∈ cappedRows a.queues v ∧
          (share a now v (e.job.queueId, cap)).length =
            (cap - countRunning e.job.queueId v).toNat ∧
          ∀ q ∈ share a now v (e.job.queueId, cap),
            priorityKey a.aging now e.job ≤ priorityKey a.aging now q.2.job := by
  have hkey : Key.job id ∈ v.keys :=
    hlisted _ fun hnone => Option.some_ne_none _ (he.symm.trans hnone)
  rcases h with hwhere | ⟨queue, hqueue, hqueues, hwhere⟩
  · exact .inl (List.mem_append_left _ (mem_ready.mpr ⟨hkey, he, hwhere⟩))
  · obtain ⟨cap, hcap, hrow⟩ := cappedRow_of_queue hlisted hqueue hqueues
    by_cases hshare : (id, e) ∈ share a now v (e.job.queueId, cap)
    · exact .inl (List.mem_append_right _ (List.mem_flatMap.mpr ⟨_, hrow, hshare⟩))
    · refine .inr ⟨cap, by rw [hqueue, Option.bind_some, hcap], hrow, ?_⟩
      exact share_full (p := (id, e)) (mem_ready.mpr ⟨hkey, he, hwhere⟩) hshare

theorem keepsOrder_of_cut (hv : Keyable v) (h : CutByPriority a now v) :
    KeepsOrder a now v (((passOrder a now v).take a.limit).map (handedOut a now))
      (afterClaim t a now v) := by
  intro j hj id e he helig hleft hroom
  obtain ⟨p, hp, rfl⟩ := List.mem_map.mp hj
  have hnot : (id, e) ∉ (passOrder a now v).take a.limit := by
    intro hmem
    obtain ⟨e', he', hrunning⟩ := afterClaim_taken (t := t) (List.mem_map_of_mem hmem)
    obtain rfl := Option.some.inj (hleft.symm.trans he')
    rw [helig.pending] at hrunning
    cases hrunning
  show priorityKey a.aging now e.job ≤ priorityKey a.aging now p.2.job
  rcases mem_passOrder_or hlisted he helig with hmem | ⟨cap, hcap, hrow, hlength, hrank⟩
  · rw [← List.take_append_drop a.limit (passOrder a now v)] at hmem
    exact h p hp (id, e) ((List.mem_append.mp hmem).resolve_left hnot)
  · obtain ⟨queue, hqueue, hroom⟩ := hroom
    rw [afterClaim_queue] at hqueue
    rw [hqueue] at hcap
    have hfree := hroom cap hcap
    rw [afterClaim_running hv] at hfree
    have hfilter : ((passOrder a now v).filter fun p => p.2.job.queueId = e.job.queueId) =
        share a now v (e.job.queueId, cap) := filter_passOrder hv hrow
    rw [← List.take_append_drop a.limit (passOrder a now v), List.filter_append] at hfilter
    have hsum := congrArg List.length hfilter
    rw [List.length_append, hlength] at hsum
    -- the room that is left is that of a job of the share behind the cut
    obtain ⟨q, hq⟩ := List.exists_mem_of_length_pos (l := ((passOrder a now v).drop a.limit).filter
      fun p => p.2.job.queueId = e.job.queueId) (by omega)
    have hshare : q ∈ share a now v (e.job.queueId, cap) :=
      hfilter ▸ List.mem_append_right _ hq
    exact (hrank q hshare).trans (h p hp q (List.mem_filter.mp hq).1)

end Listed

theorem cut_of_keepsOrder (hv : Keyable v)
    (h : KeepsOrder a now v (((passOrder a now v).take a.limit).map (handedOut a now))
      (afterClaim t a now v)) : CutByPriority a now v := by
  intro p hp q hq
  obtain ⟨-, hjob, -, helig⟩ := of_mem_passOrder (List.mem_of_mem_drop hq)
  refine h _ (List.mem_map_of_mem hp) q.1 q.2 hjob helig (afterClaim_left hv hq) ?_
  rcases List.mem_append.mp (List.mem_of_mem_drop hq) with hready | hshares
  · obtain ⟨queue, hqueue, hnone⟩ := uncapped_of_ready hready
    refine ⟨queue, (afterClaim_queue _).trans hqueue, fun cap hcap => ?_⟩
    rw [hnone] at hcap
    cases hcap
  · obtain ⟨row, hrow, hshare⟩ := List.mem_flatMap.mp hshares
    obtain ⟨queue, hqueue, hmax, -⟩ := mem_cappedRows hrow
    have hid := queue_of_share hshare
    refine ⟨queue, (afterClaim_queue _).trans (hid ▸ hqueue), fun cap hcap => ?_⟩
    obtain rfl := Option.some.inj (hmax.symm.trans hcap)
    rw [hid]
    exact running_of_left hv hrow hshare hq

-- A job of a queue with a cap.
def OfCapped (v : Snapshot) (queueId : QueueId) : Prop :=
  (v.queue queueId).bind Queue.maxConcurrency ≠ none

-- Jobs of capped queues are what the first pass leaves the limit for.
theorem capped_reached_iff : (∃ p ∈ (passOrder a now v).take a.limit, OfCapped v p.2.job.queueId) ↔
    (ready a.aging now (uncappedWhere a now v) v).length < a.limit ∧
      ∃ row ∈ cappedRows a.queues v, share a now v row ≠ [] := by
  rw [take_passOrder]
  constructor
  · rintro ⟨p, hp, hcapped⟩
    rcases List.mem_append.mp hp with hp | hp
    · obtain ⟨queue, hqueue, hnone⟩ := uncapped_of_ready (List.mem_of_mem_take hp)
      rw [OfCapped, hqueue, Option.bind_some, hnone] at hcapped
      exact absurd rfl hcapped
    · have hpos := List.length_pos_of_mem hp
      rw [List.length_take] at hpos
      obtain ⟨row, hrow, hshare⟩ := List.mem_flatMap.mp (List.mem_of_mem_take hp)
      exact ⟨by omega, row, hrow, List.ne_nil_of_mem hshare⟩
  · rintro ⟨hlt, row, hrow, hne⟩
    obtain ⟨x, hx⟩ := List.exists_mem_of_ne_nil _ hne
    have hall : x ∈ (cappedRows a.queues v).flatMap (share a now v) :=
      List.mem_flatMap.mpr ⟨row, hrow, hx⟩
    have hpos := List.length_pos_of_mem hall
    obtain ⟨p, hp⟩ := List.exists_mem_of_length_pos
      (l := ((cappedRows a.queues v).flatMap (share a now v)).take
        (a.limit - (ready a.aging now (uncappedWhere a now v) v).length))
      (by rw [List.length_take]; omega)
    refine ⟨p, List.mem_append_right _ hp, ?_⟩
    obtain ⟨row, hrow, hshare⟩ := List.mem_flatMap.mp (List.mem_of_mem_take hp)
    obtain ⟨queue, hqueue, hcap, -⟩ := mem_cappedRows hrow
    rw [OfCapped, queue_of_share hshare, hqueue, Option.bind_some, hcap]
    exact Option.some_ne_none _

-- Made in a database where nothing else is going on, a claim keeps the order of priorities exactly
-- if the limit cuts the order of its passes by priority, and comes to a job of a capped queue
-- exactly if the ready jobs of the uncapped queues are fewer than the limit and some capped queue
-- admits a job.
theorem claim_keeps_order (hv : Keyable v) {m : Db} (hm : Settled v now m) :
    ∃ jobs m', (claimBatch t a now).run t m = some (jobs, m') ∧
      (KeepsOrder a now v jobs (m'.view t) ↔ CutByPriority a now v) ∧
      ((∃ j ∈ jobs, OfCapped v j.queueId) ↔
        (ready a.aging now (uncappedWhere a now v) v).length < a.limit ∧
          ∃ row ∈ cappedRows a.queues v, share a now v row ≠ []) := by
  obtain ⟨jobs, m', hrun, hjobs, hsees⟩ := runs_claimBatch (a := a) hv m (hm.sees t)
  have hlisted : ∀ k, v.row k ≠ none → k ∈ v.keys := fun k hk =>
    (hm.sees t).mem_keys (Option.ne_none_iff_exists'.mp hk).choose_spec
  refine ⟨jobs, m', hrun, ?_, ?_⟩
  · rw [hjobs, hsees.view]
    exact ⟨cut_of_keepsOrder hv, keepsOrder_of_cut hlisted hv⟩
  · rw [hjobs, ← capped_reached_iff]
    constructor
    · rintro ⟨j, hj, hcapped⟩
      obtain ⟨p, hp, rfl⟩ := List.mem_map.mp hj
      exact ⟨p, hp, hcapped⟩
    · exact fun ⟨p, hp, hcapped⟩ => ⟨_, List.mem_map_of_mem hp, hcapped⟩

end Order

section Example

-- A job of a queue without a cap, and one of higher priority whose queue admits it.
def mixedRows : List (Sigma Row) :=
  let plain : Queue := .fresh 0 0 "default"
  let capped : Queue := { Queue.fresh 1 0 "exports" with maxConcurrency := some 1 }
  let urgent : JobCreate := { exampleBody none [] with queue := "exports", priority := some 100 }
  [⟨.queue 0, plain⟩, ⟨.queue 1, capped⟩,
    ⟨.job 7, newRow 1 (JobService.buildJob 7 0 plain (exampleBody none []) none 0) []⟩,
    ⟨.job 8, newRow 1 (JobService.buildJob 8 0 capped urgent none 0) []⟩]

def mixedView : Snapshot := .seed mixedRows

def mixedClaim (limit : Nat) : ClaimArgs := ⟨5, ["default", "exports"], limit, 30, none, ⟨60, 200⟩⟩

theorem keyable_mixed : Keyable mixedView where
  nodup := by decide
  id id e he := by
    have hmem : ⟨.job id, e⟩ ∈ mixedRows := List.of_mem_dlookup he
    simp only [mixedRows, List.mem_cons, Sigma.mk.injEq, List.not_mem_nil, or_false] at hmem
    rcases hmem with ⟨hid, -⟩ | ⟨hid, -⟩ | ⟨hid, heq⟩ | ⟨hid, heq⟩
    · cases hid
    · cases hid
    · obtain rfl := Key.job.inj hid
      exact eq_of_heq heq ▸ rfl
    · obtain rfl := Key.job.inj hid
      exact eq_of_heq heq ▸ rfl

theorem settled_mixed : Settled mixedView (0 : Time) (Txn.Store.seed mixedRows 0) :=
  .seed (by decide) 0

-- With a limit of one the claim hands out the job of the lower priority.
theorem uncapped_pass_outranked : ¬ ∀ t a now v m, Keyable v → Settled v now m →
    ∃ jobs m', (claimBatch t a now).run t m = some (jobs, m') ∧
      KeepsOrder a now v jobs (m'.view t) := by
  intro h
  obtain ⟨jobs, m', hrun, hkeeps⟩ :=
    h 2 (mixedClaim 1) 0 mixedView (Txn.Store.seed mixedRows 0) keyable_mixed settled_mixed
  obtain ⟨jobs', m'', hrun', hjobs, hsees⟩ :=
    runs_claimBatch (a := mixedClaim 1) keyable_mixed _ (settled_mixed.sees 2)
  obtain ⟨rfl, rfl⟩ := Prod.mk.inj (Option.some.inj (hrun.symm.trans hrun'))
  rw [hjobs, hsees.view] at hkeeps
  have hcut : CutByPriority (mixedClaim 1) 0 mixedView := cut_of_keepsOrder keyable_mixed hkeeps
  revert hcut
  unfold CutByPriority
  decide +kernel

theorem claim_keeps_order_mixed : ∃ jobs m',
    (claimBatch 2 (mixedClaim 2) 0).run 2 (Txn.Store.seed mixedRows 0) = some (jobs, m') ∧
      KeepsOrder (mixedClaim 2) 0 mixedView jobs (m'.view 2) ∧
      ∃ j ∈ jobs, OfCapped mixedView j.queueId := by
  obtain ⟨jobs, m', hrun, hkeeps, hcapped⟩ := claim_keeps_order keyable_mixed settled_mixed
  refine ⟨jobs, m', hrun, hkeeps.mpr fun p hp q hq => ?_, hcapped.mpr ⟨?_, (1, 1), ?_, ?_⟩⟩
  · have hnone : (passOrder (mixedClaim 2) 0 mixedView).drop (mixedClaim 2).limit = [] := by
      rw [List.drop_eq_nil_iff]
      decide +kernel
    rw [hnone] at hq
    cases hq
  · decide +kernel
  · decide +kernel
  · decide +kernel

end Example

end Chronos
