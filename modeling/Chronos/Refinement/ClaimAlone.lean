import Chronos.Refinement.Checks
import Chronos.Txn.Alone

namespace Chronos

open Txn (TxId Runs Sees Among)
open JobRepository

variable {t : TxId} {a : ClaimArgs} {now clock : Time} {v w : Snapshot} {free : Key → Bool}

-- The jobs a scan finds, in claim order.
def ready (aging : Aging) (now : Time) (cond : JobEntry → Bool) (v : Snapshot) :
    List (JobId × JobEntry) :=
  (v.jobsWhere cond).insertionSort fun p q => claimsBefore aging now p.2.job q.2.job

-- What the capacity of a capped queue admits.
def share (a : ClaimArgs) (now : Time) (v : Snapshot) (row : QueueId × Int) :
    List (JobId × JobEntry) :=
  (ready a.aging now (cappedWhere now row.1) v).take (row.2 - countRunning row.1 v).toNat

def cappedRows (queues : List String) (v : Snapshot) : List (QueueId × Int) :=
  (cappedQueues queues v).filterMap fun id =>
    ((v.queue id).bind Queue.maxConcurrency).map fun cap => (id, cap)

-- The jobs the two passes come to, if the limit lets them: those of the uncapped queues, then of
-- one capped queue after the other what its capacity admits.
def passOrder (a : ClaimArgs) (now : Time) (v : Snapshot) : List (JobId × JobEntry) :=
  ready a.aging now (uncappedWhere a now v) v ++ (cappedRows a.queues v).flatMap (share a now v)

-- The rows that no other transaction holds.
def unheld (free : Key → Bool) (rows : List (JobId × JobEntry)) : List (JobId × JobEntry) :=
  rows.filter fun p => free (.job p.1)

-- The same among other transactions, whose rows are passed over.
def shareAmong (free : Key → Bool) (a : ClaimArgs) (now : Time) (v : Snapshot)
    (row : QueueId × Int) : List (JobId × JobEntry) :=
  (unheld free (ready a.aging now (cappedWhere now row.1) v)).take
    (row.2 - countRunning row.1 v).toNat

def rowsAmong (free : Key → Bool) (queues : List String) (v : Snapshot) : List (QueueId × Int) :=
  (cappedRows queues v).filter fun row => free (.queue row.1)

def passAmong (free : Key → Bool) (a : ClaimArgs) (now : Time) (v : Snapshot) :
    List (JobId × JobEntry) :=
  unheld free (ready a.aging now (uncappedWhere a now v) v) ++
    (rowsAmong free a.queues v).flatMap (shareAmong free a now v)

@[simp] theorem unheld_true (rows : List (JobId × JobEntry)) :
    unheld (fun _ => true) rows = rows :=
  List.filter_true rows

@[simp] theorem shareAmong_true (a : ClaimArgs) (now : Time) (v : Snapshot) :
    shareAmong (fun _ => true) a now v = share a now v := by
  funext row
  rw [shareAmong, unheld_true, share]

@[simp] theorem rowsAmong_true (queues : List String) (v : Snapshot) :
    rowsAmong (fun _ => true) queues v = cappedRows queues v :=
  List.filter_true _

@[simp] theorem passAmong_true (a : ClaimArgs) (now : Time) (v : Snapshot) :
    passAmong (fun _ => true) a now v = passOrder a now v := by
  rw [passAmong, unheld_true, rowsAmong_true, shareAmong_true, passOrder]

-- The rows of the snapshot, some jobs claimed.
def Snapshot.claim (t : TxId) (a : ClaimArgs) (now : Time) (pass : Pass) (v : Snapshot)
    (rows : List (JobId × JobEntry)) : Snapshot :=
  rows.foldl (fun v p => v.put (.job p.1) (p.2.claim t a.workerId a.leaseSeconds now pass)) v

def handedOut (a : ClaimArgs) (now : Time) (p : JobId × JobEntry) : Job :=
  claimValues a.workerId a.leaseSeconds now p.2.job

section Programs

variable {cond : JobEntry → Bool} {rows held : List (JobId × JobEntry)}

-- The transaction has locked the rows.
structure LocksRows (t : TxId) (free : Key → Bool) (w : Snapshot) (clock : Time)
    (held : List (JobId × JobEntry)) (m : Db) : Prop where
  among : Among t free w clock m
  rows : ∀ p ∈ held, w.job p.1 = some p.2
  locked : ∀ p ∈ held, (m.cell (.job p.1)).pending = some (t, p.2)

theorem LocksRows.lock {m : Db} (h : LocksRows t free w clock held m) {p : JobId × JobEntry}
    (hp : w.job p.1 = some p.2) (hfree : free (.job p.1) = true) :
    LocksRows t free w clock (held ++ [p]) (m.own t (.job p.1) p.2) := by
  refine ⟨h.among.keep hp hfree, fun q hq => ?_, fun q hq => ?_⟩
  · rcases List.mem_append.mp hq with hq | hq
    · exact h.rows q hq
    · exact List.mem_singleton.mp hq ▸ hp
  · by_cases hid : q.1 = p.1
    · have hq' : w.job q.1 = some q.2 := by
        rcases List.mem_append.mp hq with hq | hq
        · exact h.rows q hq
        · exact List.mem_singleton.mp hq ▸ hp
      have hrow : q.2 = p.2 := Option.some.inj (hq'.symm.trans (hid ▸ hp))
      rw [hid, hrow, Txn.Store.own_cell_self]
    · rcases List.mem_append.mp hq with hq | hq
      · rw [Txn.Store.own_cell_ne t _ _ m (by simpa using hid)]
        exact h.locked q hq
      · exact absurd (congrArg Prod.fst (List.mem_singleton.mp hq)) hid

-- The loop locks the first rows that it is given and nobody else holds.
theorem runs_lockRows (hrows : ∀ p ∈ rows, w.job p.1 = some p.2 ∧ cond p.2 = true) (n : Nat) :
    Runs t (LocksRows t free w clock held) (lockRows cond n (rows.map Prod.fst)) fun es m =>
      es = ((unheld free rows).take n).map Prod.snd ∧
        LocksRows t free w clock (held ++ (unheld free rows).take n) m := by
  induction rows generalizing n held with
  | nil => cases n <;> exact .pure fun m h => ⟨by simp [unheld], by simpa [unheld] using h⟩
  | cons p rows ih =>
      cases n with
      | zero => exact .pure fun m h => ⟨by simp, by simpa using h⟩
      | succ n =>
          obtain ⟨hp, hcond⟩ := hrows p List.mem_cons_self
          have hrest : ∀ q ∈ rows, w.job q.1 = some q.2 ∧ cond q.2 = true :=
            fun q hq => hrows q (List.mem_cons_of_mem _ hq)
          cases hfree : free (.job p.1) with
          | false =>
              have hpass : Runs t (LocksRows t free w clock held) (lockJob p.1 cond) fun r m =>
                  r = none ∧ LocksRows t free w clock held m := by
                refine .stmt fun m h => ⟨none, m, ?_, rfl, h⟩
                rw [h.among.exec_lock hp, hfree]
                rfl
              have hskip : unheld free (p :: rows) = unheld free rows := by simp [unheld, hfree]
              refine .bind hpass fun r => .given fun hr => ?_
              subst hr
              rw [hskip]
              exact ih hrest (n + 1)
          | true =>
              have hlock : Runs t (LocksRows t free w clock held) (lockJob p.1 cond) fun r m =>
                  r = some p.2 ∧ LocksRows t free w clock (held ++ [p]) m := by
                refine .stmt fun m h => ⟨some p.2, m.own t (.job p.1) p.2, ?_, rfl, h.lock hp hfree⟩
                rw [h.among.exec_lock hp, hfree, hcond]
                rfl
              have htake : unheld free (p :: rows) = p :: unheld free rows := by
                simp [unheld, hfree]
              refine .bind hlock fun r => .given fun hr => ?_
              subst hr
              refine .bind (ih hrest n) fun es => .given fun hes => .pure fun m h => ?_
              rw [htake, List.take_succ_cons, List.map_cons]
              exact ⟨by rw [hes], by simpa using h⟩

theorem LocksRows.claim {m : Db} {p : JobId × JobEntry} (h : LocksRows t free w clock (p :: rows) m)
    (hnew : p.1 ∉ rows.map Prod.fst) (hfree : free (.job p.1) = true) (e : JobEntry) :
    LocksRows t free (w.put (.job p.1) e) clock rows (m.own t (.job p.1) e) := by
  have hne : ∀ q ∈ rows, Key.job q.1 ≠ Key.job p.1 := fun q hq heq =>
    hnew (Key.job.inj heq ▸ List.mem_map_of_mem hq)
  refine ⟨h.among.own e (h.rows p List.mem_cons_self) hfree, fun q hq => ?_, fun q hq => ?_⟩
  · rw [Snapshot.job, Txn.View.put_row_ne e w (hne q hq)]
    exact h.rows q (List.mem_cons_of_mem _ hq)
  · rw [Txn.Store.own_cell_ne t _ _ m (hne q hq)]
    exact h.locked q (List.mem_cons_of_mem _ hq)

theorem runs_updateCandidates (pass : Pass) (hids : ∀ p ∈ rows, p.2.job.id = p.1)
    (hfree : ∀ p ∈ rows, free (.job p.1) = true) (hnodup : (rows.map Prod.fst).Nodup) :
    Runs t (LocksRows t free w clock rows) (updateCandidates t a now pass (rows.map Prod.snd))
      fun jobs m =>
        jobs = rows.map (handedOut a now) ∧ Among t free (w.claim t a now pass rows) clock m := by
  induction rows generalizing w with
  | nil => exact .pure fun m h => ⟨rfl, h.among⟩
  | cons p rows ih =>
      rw [List.map_cons, List.nodup_cons] at hnodup
      have hid := hids p List.mem_cons_self
      let e := p.2.claim t a.workerId a.leaseSeconds now pass
      have hwrite : Runs t (LocksRows t free w clock (p :: rows)) (writeJob p.2.job.id
          (JobEntry.claim t a.workerId a.leaseSeconds now pass)) fun r m =>
            r = some e ∧ LocksRows t free (w.put (.job p.1) e) clock rows m := by
        refine .stmt fun m h => ⟨some e, m.own t (.job p.1) e, ?_, rfl,
          h.claim hnodup.1 (hfree p List.mem_cons_self) e⟩
        rw [hid]
        simp only [Txn.exec, h.locked p List.mem_cons_self, if_true]
        rfl
      refine .bind hwrite fun r => .given fun hr => ?_
      subst hr
      refine .bind (ih (fun q hq => hids q (List.mem_cons_of_mem _ hq))
        (fun q hq => hfree q (List.mem_cons_of_mem _ hq)) hnodup.2) fun jobs => ?_
      refine .given fun hjobs => .pure fun m h => ⟨?_, h⟩
      subst hjobs
      rfl

theorem free_of_unheld {p : JobId × JobEntry} (hp : p ∈ unheld free rows) :
    p ∈ rows ∧ free (.job p.1) = true :=
  List.mem_filter.mp hp

theorem mem_of_take_unheld {p : JobId × JobEntry} {n : Nat} (hp : p ∈ (unheld free rows).take n) :
    p ∈ rows :=
  (free_of_unheld (List.mem_of_mem_take hp)).1

-- One pass over the jobs of a scan.
theorem runs_claimWhere (pass : Pass) {scan : Snapshot → List JobId × (JobEntry → Bool)}
    (hscan : scan w = (rows.map Prod.fst, cond))
    (hrows : ∀ p ∈ rows, w.job p.1 = some p.2 ∧ cond p.2 = true)
    (hids : ∀ p ∈ rows, p.2.job.id = p.1) (hnodup : (rows.map Prod.fst).Nodup) (n : Nat) :
    Runs t (Among t free w clock) (claimWhere t a now pass scan n) fun jobs m =>
      jobs = ((unheld free rows).take n).map (handedOut a now) ∧
        Among t free (w.claim t a now pass ((unheld free rows).take n)) clock m := by
  refine .bind (.select_among _) fun found => .given fun hfound => ?_
  obtain rfl : found = (rows.map Prod.fst, cond) := hfound.trans hscan
  have hlock : Runs t (LocksRows t free w clock []) (lockRows cond n (rows.map Prod.fst))
      fun es m => es = ((unheld free rows).take n).map Prod.snd ∧
        LocksRows t free w clock ([] ++ (unheld free rows).take n) m :=
    runs_lockRows hrows n
  refine .bind (hlock.pre fun m h => ⟨h, by simp, by simp⟩) fun es => .given fun hes => ?_
  subst hes
  refine runs_updateCandidates pass (fun p hp => hids p (mem_of_take_unheld hp))
    (fun p hp => (free_of_unheld (List.mem_of_mem_take hp)).2) ?_
  have hsub : ((unheld free rows).take n).Sublist rows :=
    (List.take_sublist n _).trans List.filter_sublist
  exact (hsub.map Prod.fst).nodup hnodup

section Lists

theorem mem_ready {p : JobId × JobEntry} : p ∈ ready a.aging now cond v ↔
    Key.job p.1 ∈ v.keys ∧ v.job p.1 = some p.2 ∧ cond p.2 = true := by
  rw [ready, (List.perm_insertionSort _ _).mem_iff]
  exact mem_jobsWhere

theorem nodup_ready (h : v.keys.Nodup) : ((ready a.aging now cond v).map Prod.fst).Nodup :=
  ((List.perm_insertionSort _ _).map Prod.fst).nodup_iff.mpr (nodup_jobsWhere h cond)

end Lists

section Views

variable {pass : Pass}

theorem claim_keys : (v.claim t a now pass rows).keys = v.keys := by
  induction rows generalizing v with
  | nil => rfl
  | cons p rows ih => exact ih

theorem claim_append (more : List (JobId × JobEntry)) : v.claim t a now pass (rows ++ more) =
    (v.claim t a now pass rows).claim t a now pass more :=
  List.foldl_append

theorem claim_row_ne {k : Key} (hk : ∀ p ∈ rows, k ≠ .job p.1) :
    (v.claim t a now pass rows).row k = v.row k := by
  induction rows generalizing v with
  | nil => rfl
  | cons p rows ih =>
      refine (ih fun q hq => hk q (List.mem_cons_of_mem _ hq)).trans ?_
      exact Txn.View.put_row_ne _ v (hk p List.mem_cons_self)

theorem claim_queue (id : QueueId) : (v.claim t a now pass rows).queue id = v.queue id :=
  claim_row_ne fun _ _ => by simp

theorem claim_cappedRows (queues : List String) :
    cappedRows queues (v.claim t a now pass rows) = cappedRows queues v := by
  have hqueue : (v.claim t a now pass rows).queue = v.queue := funext claim_queue
  simp only [cappedRows, cappedQueues, Snapshot.queueIds, claim_keys, hqueue]

theorem claim_job (id : JobId) : (v.claim t a now pass rows).job id = v.job id ∨
    ∃ p ∈ rows, p.1 = id ∧ (v.claim t a now pass rows).job id =
      some (p.2.claim t a.workerId a.leaseSeconds now pass) := by
  induction rows generalizing v with
  | nil => exact .inl rfl
  | cons p rows ih =>
      have hrest := ih (v := v.put (.job p.1) (p.2.claim t a.workerId a.leaseSeconds now pass))
      rcases hrest with hsame | ⟨q, hq, hid, hjob⟩
      · by_cases hid : p.1 = id
        · refine .inr ⟨p, List.mem_cons_self, hid, hsame.trans ?_⟩
          rw [← hid]
          exact Txn.View.put_row_self _ _ v
        · refine .inl (hsame.trans ?_)
          exact Txn.View.put_row_ne _ v (by simpa using Ne.symm hid)
      · exact .inr ⟨q, List.mem_cons_of_mem _ hq, hid, hjob⟩

-- A scan that finds none of the claimed jobs, before or after, finds the same.
theorem claim_jobsWhere {c : JobEntry → Bool} (hrows : ∀ p ∈ rows, v.job p.1 = some p.2)
    (hc : ∀ p ∈ rows, c p.2 = false ∧
      c (p.2.claim t a.workerId a.leaseSeconds now pass) = false) :
    (v.claim t a now pass rows).jobsWhere c = v.jobsWhere c := by
  unfold Snapshot.jobsWhere Snapshot.jobIds
  rw [claim_keys]
  refine List.filterMap_congr fun id _ => ?_
  have hjob : (v.claim t a now pass rows).job id = v.job id ∨ _ := claim_job id
  rcases hjob with hsame | ⟨p, hp, rfl, hjob⟩
  · rw [hsame]
  · rw [hjob, hrows p hp]
    simp [hc p hp]

theorem claim_shareAmong {row : QueueId × Int} (hrows : ∀ p ∈ rows, v.job p.1 = some p.2)
    (hother : ∀ p ∈ rows, p.2.job.queueId ≠ row.1) :
    shareAmong free a now (v.claim t a now pass rows) row = shareAmong free a now v row := by
  have hready : ready a.aging now (cappedWhere now row.1) (v.claim t a now pass rows) =
      ready a.aging now (cappedWhere now row.1) v := by
    unfold ready
    rw [claim_jobsWhere hrows fun p hp => ?_]
    have hne := hother p hp
    simp [cappedWhere, JobEntry.claim, JobEntry.amend, claimValues, hne]
  have hrunning : countRunning row.1 (v.claim t a now pass rows) = countRunning row.1 v := by
    unfold countRunning
    rw [claim_jobsWhere hrows fun p hp => ?_]
    have hne := hother p hp
    simp [JobEntry.claim, JobEntry.amend, claimValues, hne]
  rw [shareAmong, shareAmong, hready, hrunning]

end Views

-- The keys of the rows are right, and listed once.
structure Keyable (w : Snapshot) : Prop where
  nodup : w.keys.Nodup
  id : ∀ id e, w.job id = some e → e.job.id = id

theorem Keyable.claim {pass : Pass} (h : Keyable w) (hrows : ∀ p ∈ rows, w.job p.1 = some p.2) :
    Keyable (w.claim t a now pass rows) where
  nodup := by
    rw [claim_keys]
    exact h.nodup
  id id e he := by
    have hjob : (w.claim t a now pass rows).job id = w.job id ∨ _ := claim_job id
    rcases hjob with hsame | ⟨p, hp, rfl, hjob⟩
    · exact h.id id e (hsame.symm.trans he)
    · obtain rfl := Option.some.inj (hjob.symm.trans he)
      exact h.id p.1 p.2 (hrows p hp)

theorem runs_claimReady (pass : Pass) {scan : Snapshot → List JobId × (JobEntry → Bool)}
    (hw : Keyable w) (hscan : scan w = ((ready a.aging now cond w).map Prod.fst, cond)) (n : Nat) :
    Runs t (Among t free w clock) (claimWhere t a now pass scan n) fun jobs m =>
      jobs = ((unheld free (ready a.aging now cond w)).take n).map (handedOut a now) ∧
        Among t free (w.claim t a now pass ((unheld free (ready a.aging now cond w)).take n))
          clock m :=
  runs_claimWhere pass hscan (fun _ hp => (mem_ready.mp hp).2)
    (fun p hp => hw.id p.1 p.2 (mem_ready.mp hp).2.1) (nodup_ready hw.nodup) n

-- The jobs of a queue that its capacity and the limit admit are the first of its share.
theorem take_shareAmong (free : Key → Bool) (a : ClaimArgs) (now : Time) (w : Snapshot)
    (row : QueueId × Int) (n : Nat) :
    (unheld free (ready a.aging now (cappedWhere now row.1) w)).take
      (min (row.2 - countRunning row.1 w) (n : Int)).toNat = (shareAmong free a now w row).take n := by
  rw [shareAmong, List.take_take]
  congr 1
  omega

theorem mem_shareAmong {row : QueueId × Int} {p : JobId × JobEntry}
    (hp : p ∈ shareAmong free a now w row) :
    w.job p.1 = some p.2 ∧ cappedWhere now row.1 p.2 = true :=
  (mem_ready.mp (mem_of_take_unheld hp)).2

theorem queue_of_shareAmong {row : QueueId × Int} {p : JobId × JobEntry}
    (hp : p ∈ shareAmong free a now w row) : p.2.job.queueId = row.1 := by
  have hwhere := (mem_shareAmong hp).2
  simp only [cappedWhere, decide_eq_true_eq] at hwhere
  exact hwhere.2.2

theorem mem_share {row : QueueId × Int} {p : JobId × JobEntry} (hp : p ∈ share a now w row) :
    w.job p.1 = some p.2 ∧ cappedWhere now row.1 p.2 = true := by
  rw [← shareAmong_true] at hp
  exact mem_shareAmong hp

theorem queue_of_share {row : QueueId × Int} {p : JobId × JobEntry} (hp : p ∈ share a now w row) :
    p.2.job.queueId = row.1 := by
  rw [← shareAmong_true] at hp
  exact queue_of_shareAmong hp

-- The capped pass goes from share to share until the limit is used up.
theorem runs_claimFromQueues (hw : Keyable w) (queues : List (QueueId × Int))
    (hnodup : (queues.map Prod.fst).Nodup) (n : Nat) :
    Runs t (Among t free w clock) (claimFromQueues t a now queues n) fun jobs m =>
      jobs = ((queues.flatMap (shareAmong free a now w)).take n).map (handedOut a now) ∧
        Among t free (w.claim t a now .capped
          ((queues.flatMap (shareAmong free a now w)).take n)) clock m := by
  induction queues generalizing w n with
  | nil => exact .pure fun m h => ⟨by simp, by simpa [Snapshot.claim] using h⟩
  | cons row queues ih =>
      obtain ⟨q, cap⟩ := row
      rw [List.map_cons, List.nodup_cons] at hnodup
      rw [claimFromQueues, List.flatMap_cons]
      by_cases hn : n = 0
      · subst hn
        exact .pure fun m h => ⟨by simp, by simpa [Snapshot.claim] using h⟩
      · rw [if_neg hn]
        refine .bind (.select_among _) fun running => .given fun hrunning => ?_
        subst hrunning
        dsimp only
        by_cases hfull : min (cap - countRunning q w) (n : Int) ≤ 0
        · rw [if_pos hfull]
          have hnone : shareAmong free a now w (q, cap) = [] := by
            have hzero : (cap - countRunning q w).toNat = 0 := by omega
            simp [shareAmong, hzero]
          rw [hnone, List.nil_append]
          exact ih hw hnodup.2 n
        · rw [if_neg hfull]
          let taken := (shareAmong free a now w (q, cap)).take n
          have hbatch : Runs t (Among t free w clock) (claimWhere t a now .capped
              (cappedScan a now q) (min (cap - countRunning q w) (n : Int)).toNat) fun jobs m =>
                jobs = taken.map (handedOut a now) ∧
                  Among t free (w.claim t a now .capped taken) clock m := by
            have htaken : taken = _ := (take_shareAmong free a now w (q, cap) n).symm
            rw [htaken]
            exact runs_claimReady .capped hw rfl _
          refine .bind hbatch fun batch => .given fun hjobs => ?_
          subst hjobs
          have hrows : ∀ p ∈ taken, w.job p.1 = some p.2 :=
            fun p hp => (mem_shareAmong (List.mem_of_mem_take hp)).1
          have hshares : queues.flatMap (shareAmong free a now (w.claim t a now .capped taken)) =
              queues.flatMap (shareAmong free a now w) := by
            refine List.flatMap_congr fun row hrow => claim_shareAmong hrows fun p hp heq => ?_
            have hq : p.2.job.queueId = q := queue_of_shareAmong (List.mem_of_mem_take hp)
            have hmem : row.1 ∈ queues.map Prod.fst := List.mem_map_of_mem hrow
            exact hnodup.1 ((hq.symm.trans heq).symm ▸ hmem)
          have hleft : n - (taken.map (handedOut a now)).length =
              n - (shareAmong free a now w (q, cap)).length := by
            rw [List.length_map, List.length_take]
            omega
          have hw' : Keyable (w.claim t a now .capped taken) := hw.claim hrows
          have hrest := ih hw' hnodup.2 (n - (shareAmong free a now w (q, cap)).length)
          rw [hleft]
          rw [hshares] at hrest
          refine .bind hrest fun rest => .given fun hjobs => .pure fun m h => ?_
          subst hjobs
          rw [List.take_append, claim_append, List.map_append]
          exact ⟨rfl, h⟩

-- The queue rows locked for a claim, but those that another transaction holds.
theorem runs_lockQueues (queues : List String) (ids : List QueueId)
    (hids : ∀ id ∈ ids, ∃ row, w.queue id = some row ∧ cappedQueueWhere queues row = true) :
    Runs t (Among t free w clock) (lockQueues queues ids) fun rows m =>
      rows = (ids.filterMap fun id =>
        ((w.queue id).bind Queue.maxConcurrency).map fun cap => (id, cap)).filter
          (fun row => free (.queue row.1)) ∧ Among t free w clock m := by
  induction ids with
  | nil => exact .pure fun m h => ⟨rfl, h⟩
  | cons id ids ih =>
      obtain ⟨row, hrow, hwhere⟩ := hids id List.mem_cons_self
      have hlock : Runs t (Among t free w clock) (lockQueue id (cappedQueueWhere queues)) fun r m =>
          r = (if free (.queue id) then some row else none) ∧ Among t free w clock m := by
        refine .stmt fun m h => ?_
        rw [h.exec_lock hrow, if_pos hwhere]
        cases hfree : free (.queue id) with
        | true => exact ⟨_, _, rfl, rfl, h.keep hrow hfree⟩
        | false => exact ⟨_, _, rfl, rfl, h⟩
      refine .bind hlock fun r => .given fun hr => ?_
      subst hr
      refine .bind (ih fun id hid => hids id (List.mem_cons_of_mem _ hid)) fun rest => ?_
      refine .given fun hrest => .pure fun m h => ⟨?_, h⟩
      subst hrest
      rw [List.filterMap_cons, hrow]
      cases hfree : free (.queue id) <;> cases hcap : row.maxConcurrency <;> simp [hfree, hcap]

theorem mem_cappedQueues {queues : List String} {id : QueueId} (h : id ∈ cappedQueues queues w) :
    ∃ row, w.queue id = some row ∧ cappedQueueWhere queues row = true := by
  rw [cappedQueues, (List.perm_insertionSort _ _).mem_iff, List.mem_filter] at h
  exact (Option.any_eq_true _ _).mp h.2

theorem mem_cappedRows {queues : List String} {row : QueueId × Int}
    (h : row ∈ cappedRows queues w) :
    ∃ q, w.queue row.1 = some q ∧ q.maxConcurrency = some row.2 ∧
      cappedQueueWhere queues q = true := by
  obtain ⟨id, hid, hrow⟩ := List.mem_filterMap.mp h
  obtain ⟨q, hq, hwhere⟩ := mem_cappedQueues hid
  rw [hq, Option.bind_some, Option.map_eq_some_iff] at hrow
  obtain ⟨cap, hcap, rfl⟩ := hrow
  exact ⟨q, hq, hcap, hwhere⟩

theorem nodup_cappedRows (hw : Keyable w) (queues : List String) :
    ((cappedRows queues w).map Prod.fst).Nodup := by
  have hids : (cappedQueues queues w).Nodup := by
    rw [cappedQueues, (List.perm_insertionSort _ _).nodup_iff]
    refine List.Nodup.filter _ (hw.nodup.filterMap fun k k' id hk hk' => ?_)
    cases k <;> cases k' <;> simp_all [Key.queueId]
  have hrows : ∀ ids : List QueueId, ((ids.filterMap fun id =>
      ((w.queue id).bind Queue.maxConcurrency).map fun cap => (id, cap)).map Prod.fst).Sublist
        ids := by
    intro ids
    induction ids with
    | nil => exact .slnil
    | cons id ids ih =>
        rw [List.filterMap_cons]
        cases (w.queue id).bind Queue.maxConcurrency with
        | none => exact ih.cons id
        | some cap => exact ih.cons_cons id
  exact (hrows _).nodup hids

theorem runs_claimCapped (hw : Keyable w) (n : Nat) :
    Runs t (Among t free w clock) (claimCapped t a now n) fun jobs m =>
      jobs = (((rowsAmong free a.queues w).flatMap (shareAmong free a now w)).take n).map
          (handedOut a now) ∧
        Among t free (w.claim t a now .capped
          (((rowsAmong free a.queues w).flatMap (shareAmong free a now w)).take n)) clock m := by
  refine .bind (.select_among _) fun ids => .given fun hids => ?_
  subst hids
  refine .bind (runs_lockQueues a.queues _ fun id => mem_cappedQueues) fun rows => ?_
  refine .given fun hrows => ?_
  subst hrows
  refine runs_claimFromQueues hw _ ?_ n
  exact (List.filter_sublist.map Prod.fst).nodup (nodup_cappedRows hw a.queues)

theorem uncapped_of_ready {p : JobId × JobEntry}
    (hp : p ∈ ready a.aging now (uncappedWhere a now v) v) :
    ∃ q, v.queue p.2.job.queueId = some q ∧ q.maxConcurrency = none := by
  have hwhere := (mem_ready.mp hp).2.2
  simp only [uncappedWhere, Option.any_eq_true, decide_eq_true_eq] at hwhere
  obtain ⟨q, hq, -, hcap⟩ := hwhere
  exact ⟨q, hq, hcap⟩

theorem ready_other_queue {p : JobId × JobEntry} {row : QueueId × Int}
    (hp : p ∈ ready a.aging now (uncappedWhere a now v) v) (hrow : row ∈ cappedRows a.queues v) :
    p.2.job.queueId ≠ row.1 := by
  intro heq
  obtain ⟨q, hq, hnone⟩ := uncapped_of_ready hp
  obtain ⟨q', hq', hcap, -⟩ := mem_cappedRows hrow
  rw [heq, hq', Option.some.injEq] at hq
  rw [← hq, hcap] at hnone
  cases hnone

-- What is left behind by a claim.
def afterClaim (t : TxId) (a : ClaimArgs) (now : Time) (v : Snapshot) : Snapshot :=
  let uncapped := ready a.aging now (uncappedWhere a now v) v
  (v.claim t a now .uncapped (uncapped.take a.limit)).claim t a now .capped
    (((cappedRows a.queues v).flatMap (share a now v)).take (a.limit - uncapped.length))

def afterAmong (t : TxId) (free : Key → Bool) (a : ClaimArgs) (now : Time) (v : Snapshot) :
    Snapshot :=
  let uncapped := unheld free (ready a.aging now (uncappedWhere a now v) v)
  (v.claim t a now .uncapped (uncapped.take a.limit)).claim t a now .capped
    (((rowsAmong free a.queues v).flatMap (shareAmong free a now v)).take
      (a.limit - uncapped.length))

-- A claim hands out the jobs as the passes come to them, up to the limit.
theorem runs_claimAmong (hv : Keyable v) :
    Runs t (Among t free v clock) (claimBatch t a now) fun jobs m =>
      jobs = ((passAmong free a now v).take a.limit).map (handedOut a now) ∧
        Among t free (afterAmong t free a now v) clock m := by
  let uncapped := unheld free (ready a.aging now (uncappedWhere a now v) v)
  have hfirst : Runs t (Among t free v clock)
      (claimWhere t a now .uncapped (uncappedScan a now) a.limit) fun jobs m =>
        jobs = (uncapped.take a.limit).map (handedOut a now) ∧
          Among t free (v.claim t a now .uncapped (uncapped.take a.limit)) clock m :=
    runs_claimReady .uncapped hv rfl a.limit
  refine .bind hfirst fun claimed => .given fun hclaimed => ?_
  subst hclaimed
  dsimp only
  have hleft : a.limit - ((uncapped.take a.limit).map (handedOut a now)).length =
      a.limit - uncapped.length := by
    rw [List.length_map, List.length_take]
    omega
  rw [hleft, passAmong, List.take_append, List.map_append]
  have hrows : ∀ p ∈ uncapped.take a.limit, v.job p.1 = some p.2 :=
    fun p hp => (mem_ready.mp (mem_of_take_unheld hp)).2.1
  by_cases hpos : a.limit - uncapped.length > 0
  · rw [if_pos hpos]
    have hrowsAmong : rowsAmong free a.queues (v.claim t a now .uncapped (uncapped.take a.limit)) =
        rowsAmong free a.queues v := by
      rw [rowsAmong, claim_cappedRows, rowsAmong]
    have hshares : (rowsAmong free a.queues v).flatMap
        (shareAmong free a now (v.claim t a now .uncapped (uncapped.take a.limit))) =
          (rowsAmong free a.queues v).flatMap (shareAmong free a now v) := by
      refine List.flatMap_congr fun row hrow => claim_shareAmong hrows fun p hp => ?_
      exact ready_other_queue (mem_of_take_unheld hp) (List.mem_of_mem_filter hrow)
    have hv' : Keyable (v.claim t a now .uncapped (uncapped.take a.limit)) := hv.claim hrows
    have hcapped := @runs_claimCapped t a now clock _ free hv' (a.limit - uncapped.length)
    rw [hrowsAmong, hshares] at hcapped
    refine .bind hcapped fun more => .given fun hmore => .pure fun m h => ?_
    subst hmore
    exact ⟨rfl, h⟩
  · rw [if_neg hpos]
    refine .pure fun m h => ?_
    have hzero : a.limit - uncapped.length = 0 := by omega
    rw [afterAmong, hzero, List.take_zero, List.map_nil, List.append_nil]
    exact ⟨rfl, h⟩

-- The same of a claim that is alone.
theorem runs_claimBatch (hv : Keyable v) :
    Runs t (Sees t v now) (claimBatch t a now) fun jobs m =>
      jobs = ((passOrder a now v).take a.limit).map (handedOut a now) ∧
        Sees t (afterClaim t a now v) now m := by
  have hamong := @runs_claimAmong t a now now v (fun _ => true) hv
  have hafter : afterAmong t (fun _ => true) a now v = afterClaim t a now v := by
    simp only [afterAmong, afterClaim, unheld_true, rowsAmong_true, shareAmong_true]
  simp only [passAmong_true, hafter, ← Txn.sees_iff_among] at hamong
  exact hamong.pre fun m h => Txn.sees_iff_among.mp h

end Programs

end Chronos
