import Chronos.Refinement.Checks
import Chronos.Services.Stats
import Chronos.Txn.Alone
import Mathlib.Data.List.Chain

namespace Chronos

open Txn (TxId Execs)
open StatsService (emptyBuckets addRow fillBuckets throughput)
open AttemptRepository (throughputByMinute finishedSince counted)

variable {t : TxId} {dbNow now since : Time} {rank : Time × AttemptStatus → Nat} {v : Snapshot}

def lastHour (now : Time) (a : JobAttempt) : Bool :=
  a.finishedAt.any fun finishedAt => now - 3600 ≤ finishedAt ∧ finishedAt ≤ now

-- What the chart says of the attempts: one point a minute, and every attempt in one of them.
structure Accounts (now : Time) (attempts : List JobAttempt) (points : List ThroughputPoint) :
    Prop where
  length : points.length = 61
  apart : points.IsChain fun p q => q.minute = p.minute + 60
  sorted : points.Pairwise fun p q => p.minute < q.minute
  succeeded : (points.map (·.succeeded)).sum =
    attempts.countP fun a => lastHour now a ∧ a.status = .succeeded
  failed : (points.map (·.failed)).sum =
    attempts.countP fun a => lastHour now a ∧ (a.status = .failed ∨ a.status = .lost)

section Minutes

theorem minuteOf_add (t : Time) (i : Nat) : minuteOf (t + 60 * i) = minuteOf t + 60 * i := by
  have hdiv : (t + 60 * i) / 60 = t / 60 + i := by ring
  unfold minuteOf
  rw [hdiv, Int.floor_add_natCast]
  push_cast
  ring

theorem minuteOf_minuteOf (t : Time) : minuteOf (minuteOf t) = minuteOf t := by
  have hdiv : (60 : Time) * ⌊t / 60⌋ / 60 = ⌊t / 60⌋ := by ring
  unfold minuteOf
  rw [hdiv, Int.floor_intCast]

-- The minutes of an hour, its last one included.
theorem minuteOf_of_mem {f : Time} (hsince : since ≤ f) (hlast : f ≤ since + 3600) :
    ∃ i ∈ List.range 61, minuteOf f = minuteOf since + 60 * (i : Nat) := by
  have hlow : ⌊since / 60⌋ ≤ ⌊f / 60⌋ := Int.floor_mono (by linarith)
  have hhigh : ⌊f / 60⌋ ≤ ⌊since / 60⌋ + (60 : Nat) := by
    rw [← Int.floor_add_natCast]
    apply Int.floor_mono
    push_cast
    linarith
  refine ⟨(⌊f / 60⌋ - ⌊since / 60⌋).toNat, List.mem_range.mpr (by omega), ?_⟩
  have hfloor : ⌊f / 60⌋ = ⌊since / 60⌋ + ((⌊f / 60⌋ - ⌊since / 60⌋).toNat : Int) := by omega
  unfold minuteOf
  rw [show ((⌊f / 60⌋ : Int) : Time) =
    ((⌊since / 60⌋ + ((⌊f / 60⌋ - ⌊since / 60⌋).toNat : Int) : Int) : Time) from congrArg _ hfloor]
  push_cast
  ring

end Minutes

section Buckets

def minutes (since : Time) : List Time := (List.range 61).map fun i : Nat => minuteOf since + 60 * i

theorem sorted_minutes (since : Time) : (minutes since).Pairwise (· < ·) := by
  apply List.pairwise_map.mpr
  apply List.pairwise_lt_range.imp
  intro i j hij
  have hcast : (i : Time) < j := by exact_mod_cast hij
  linarith

theorem isChain_minutes (since : Time) : (minutes since).IsChain fun x y => y = x + 60 := by
  rw [List.isChain_iff_getElem]
  intro i hi
  simp only [minutes, List.getElem_map, List.getElem_range]
  push_cast
  ring

theorem emptyBuckets_eq (since : Time) :
    emptyBuckets since = (minutes since).map fun minute => (minute, ⟨0, 0⟩) := by
  have hfold : emptyBuckets since =
      (minutes since).foldl (fun d k => Tally.store k (⟨0, 0⟩ : Bucket) d) [] := by
    simp only [emptyBuckets, minutes, List.foldl_map, minuteOf_add]
  have hnodup : (Tally.keys ([] : List (Time × Bucket)) ++ minutes since).Nodup :=
    (sorted_minutes since).imp fun h => ne_of_lt h
  rw [hfold, Tally.foldl_store _ _ hnodup, List.nil_append]

theorem keys_emptyBuckets (since : Time) : Tally.keys (emptyBuckets since) = minutes since := by
  rw [emptyBuckets_eq, Tally.keys, List.map_map]
  exact List.map_id' _

theorem keys_fillBuckets (since : Time) (raw : List ((Time × AttemptStatus) × Nat)) :
    Tally.keys (fillBuckets since raw) = minutes since := by
  rw [fillBuckets, Tally.keys_count, keys_emptyBuckets]

-- The buckets are in order as they are.
theorem throughput_eq (since : Time) (raw : List ((Time × AttemptStatus) × Nat)) :
    throughput since raw =
      (fillBuckets since raw).map fun p => ⟨p.1, p.2.succeeded, p.2.failed⟩ := by
  have hsorted : (fillBuckets since raw).Pairwise fun a b => a.1 ≤ b.1 := by
    apply List.pairwise_map.mp
    rw [show (fillBuckets since raw).map Prod.fst = minutes since from keys_fillBuckets since raw]
    exact (sorted_minutes since).imp fun h => h.le
  rw [throughput, hsorted.insertionSort_eq]

theorem map_minute (since : Time) (raw : List ((Time × AttemptStatus) × Nat)) :
    (throughput since raw).map (·.minute) = minutes since := by
  rw [throughput_eq, List.map_map]
  exact keys_fillBuckets since raw

-- What the rows add to the buckets of a column, if none of them is passed over.
theorem sum_throughput {raw : List ((Time × AttemptStatus) × Nat)} (value : ThroughputPoint → Nat)
    (weight : Bucket → Nat) (gain : (Time × AttemptStatus) × Nat → Nat)
    (hvalue : ∀ minute bucket, value ⟨minute, bucket.succeeded, bucket.failed⟩ = weight bucket)
    (hadd : ∀ row bucket, weight (addRow row bucket) = weight bucket + gain row)
    (hzero : weight ⟨0, 0⟩ = 0) (hraw : ∀ row ∈ raw, minuteOf row.1.1 ∈ minutes since) :
    ((throughput since raw).map value).sum = (raw.map gain).sum := by
  have hkeys := keys_emptyBuckets since
  have htotal : Tally.total weight (fillBuckets since raw) =
      Tally.total weight (emptyBuckets since) + (raw.map gain).sum := by
    apply Tally.total_count hadd
    · rw [hkeys]
      exact (sorted_minutes since).imp fun h => ne_of_lt h
    · rwa [hkeys]
  have hempty : Tally.total weight (emptyBuckets since) = 0 := by
    rw [emptyBuckets_eq]
    exact Tally.total_replicate hzero _
  rw [throughput_eq, List.map_map]
  simp only [Function.comp_def, hvalue]
  rw [show ((fillBuckets since raw).map fun p => weight p.2).sum =
    Tally.total weight (fillBuckets since raw) from rfl, htotal, hempty, Nat.zero_add]

end Buckets

section Rows

-- Each row of the query is a group of attempts.
theorem mem_throughputByMinute {row : (Time × AttemptStatus) × Nat}
    (h : row ∈ throughputByMinute since rank v) :
    counted row.1.2 = true ∧ ∃ a ∈ v.attempts, ∃ f, a.finishedAt = some f ∧ since ≤ f ∧
      row.1.1 = minuteOf f := by
  rw [throughputByMinute, (List.perm_insertionSort _ _).mem_iff] at h
  obtain ⟨r, hr, hkey⟩ := Tally.mem_groupCount h
  obtain ⟨a, ha, hfound⟩ := List.mem_filterMap.mp hr
  obtain ⟨f, hf, hcond⟩ := Option.bind_eq_some_iff.mp hfound
  rw [Option.ite_none_right_eq_some] at hcond
  obtain ⟨⟨hsince, hcounted⟩, hr⟩ := hcond
  obtain rfl := Option.some.inj hr
  rw [← hkey]
  exact ⟨hcounted, a, ha, f, hf, hsince, rfl⟩

theorem sum_throughputByMinute (p : AttemptStatus → Bool) :
    ((throughputByMinute since rank v).map fun row => if p row.1.2 then row.2 else 0).sum =
      v.attempts.countP fun a => (finishedSince since a).any fun r => p r.2 := by
  have hperm := List.perm_insertionSort (fun a b : (Time × AttemptStatus) × Nat => rank a.1 ≤ rank b.1)
    (Tally.groupCount (fun r : Time × AttemptStatus => (minuteOf r.1, r.2))
      (v.attempts.filterMap (finishedSince since)))
  have hsum := Tally.sum_groupCount (fun r : Time × AttemptStatus => (minuteOf r.1, r.2))
    (v.attempts.filterMap (finishedSince since)) fun k => p k.2
  rw [throughputByMinute, (hperm.map _).sum_eq, hsum, List.countP_filterMap]
  apply List.countP_congr
  intro a _
  cases finishedSince since a <;> rfl

end Rows

section Hour

variable (hended : ∀ a ∈ v.attempts, ∀ f, a.finishedAt = some f → f ≤ now)

include hended

-- The buckets end with the minute of now, so there is one for every row.
theorem mem_minutes {row : (Time × AttemptStatus) × Nat}
    (hrow : row ∈ throughputByMinute (now - 3600) rank v) :
    minuteOf row.1.1 ∈ minutes (now - 3600) := by
  obtain ⟨-, a, ha, f, hf, hsince, hminute⟩ := mem_throughputByMinute hrow
  have hlast := hended a ha f hf
  obtain ⟨i, hi, heq⟩ := minuteOf_of_mem hsince (by linarith)
  rw [hminute, minuteOf_minuteOf, heq]
  exact List.mem_map.mpr ⟨i, hi, rfl⟩

theorem countP_finishedSince (p : AttemptStatus → Bool) :
    v.attempts.countP (fun a => (finishedSince (now - 3600) a).any fun r => p r.2) =
      v.attempts.countP fun a => lastHour now a && counted a.status && p a.status := by
  apply List.countP_congr
  intro a ha
  cases hf : a.finishedAt with
  | none => simp [finishedSince, lastHour, hf]
  | some f =>
      have hlast := hended a ha f hf
      simp only [finishedSince, lastHour, hf, Option.bind_some, Option.any_some,
        Bool.and_eq_true, decide_eq_true_eq]
      by_cases hin : now - 3600 ≤ f ∧ counted a.status = true
      · rw [if_pos hin, Option.any_some]
        tauto
      · rw [if_neg hin, Option.any_none]
        simp only [Bool.false_eq_true, false_iff]
        tauto

-- A column of the chart counts the attempts of its statuses.
theorem sum_column (value : ThroughputPoint → Nat) (weight : Bucket → Nat) (p : AttemptStatus → Bool)
    (hvalue : ∀ minute bucket, value ⟨minute, bucket.succeeded, bucket.failed⟩ = weight bucket)
    (hadd : ∀ row bucket, weight (addRow row bucket) =
      weight bucket + if p row.1.2 then row.2 else 0)
    (hzero : weight ⟨0, 0⟩ = 0) :
    ((throughput (now - 3600) (throughputByMinute (now - 3600) rank v)).map value).sum =
      v.attempts.countP fun a => lastHour now a && counted a.status && p a.status := by
  have hminutes : ∀ row ∈ throughputByMinute (now - 3600) rank v,
      minuteOf row.1.1 ∈ minutes (now - 3600) := fun row hrow => mem_minutes hended hrow
  have hsum := sum_throughput value weight _ hvalue hadd hzero hminutes
  rw [hsum, sum_throughputByMinute, countP_finishedSince hended]

-- Wherever now falls within its minute, the 61 buckets have every attempt of the hour, once.
theorem accounts_of_ended : Accounts now v.attempts
    (throughput (now - 3600) (throughputByMinute (now - 3600) rank v)) := by
  have hmap := map_minute (now - 3600) (throughputByMinute (now - 3600) rank v)
  refine ⟨?_, ?_, ?_, ?_, ?_⟩
  · have hlength := congrArg List.length hmap
    simpa [minutes] using hlength
  · have hchain := isChain_minutes (now - 3600)
    rw [← hmap] at hchain
    exact List.isChain_of_isChain_map _ (fun _ _ h => h) hchain
  · have hsorted := sorted_minutes (now - 3600)
    rw [← hmap] at hsorted
    exact List.pairwise_map.mp hsorted
  · rw [sum_column hended (·.succeeded) (·.succeeded) (fun status => status = .succeeded)
      (fun _ _ => rfl) (fun row bucket => ?_) rfl]
    · apply List.countP_congr
      intro a _
      cases a.status <;> simp [counted]
    · unfold addRow
      split <;> simp [*]
  · rw [sum_column hended (·.failed) (·.failed) (fun status => status ≠ .succeeded)
      (fun _ _ => rfl) (fun row bucket => ?_) rfl]
    · apply List.countP_congr
      intro a _
      cases a.status <;> simp [counted]
    · unfold addRow
      split <;> simp [*]

end Hour

-- Every overview accounts for the attempts that its query has found.
theorem throughput_accounted {m m' : Db} {steps : List (Db × Db)} {o : StatsOverview}
    (h : Execs t (StatsService.compute dbNow now rank) m steps (some o) m') :
    ∃ s ∈ steps, o.throughputLastHour =
        throughput (now - 3600) (throughputByMinute (now - 3600) rank (s.1.view t)) ∧
      ((∀ a ∈ Snapshot.attempts (s.1.view t), ∀ f, a.finishedAt = some f → f ≤ now) →
        Accounts now (Snapshot.attempts (s.1.view t)) o.throughputLastHour) := by
  obtain ⟨counts, m₂, m₂', steps₂, rfl, -, -, h⟩ := h.of_op rfl
  obtain ⟨ready, m₃, m₃', steps₃, rfl, -, -, h⟩ := h.of_op rfl
  obtain ⟨workers, m₄, m₄', steps₄, rfl, -, -, h⟩ := h.of_op rfl
  obtain ⟨raw, m₅, m₅', steps₅, rfl, -, hraw, h⟩ := h.of_op rfl
  obtain ⟨rfl, -⟩ := Prod.mk.inj (Option.some.inj hraw)
  have ho : o.throughputLastHour =
      throughput (now - 3600) (throughputByMinute (now - 3600) rank (m₅.view t)) := by
    cases h
    rfl
  refine ⟨(m₅, m₅'), by simp, ho, fun hended => ?_⟩
  rw [ho]
  exact accounts_of_ended hended

section Example

def exampleAttempt (status : AttemptStatus) (finishedAt : Option Time) : JobAttempt :=
  ⟨some 5, 1, status, none, 0, finishedAt⟩

-- Attempts that end at both ends of the hour, one before it, one that was aborted and one that is
-- in flight.
def hourRows : List (Sigma Row) :=
  [⟨.job 7, { (newRow 1 (exampleJob 5 1 0) []) with attempts :=
    [exampleAttempt .succeeded (some 130), exampleAttempt .lost (some (261 / 2)),
      exampleAttempt .failed (some (7459 / 2)), exampleAttempt .succeeded (some (7461 / 2)),
      exampleAttempt .aborted (some 2000), exampleAttempt .running none] }⟩]

def hourDb : Db := Txn.Store.seed hourRows 3731

-- Four queries, with nobody else at work.
def hourSteps : List (Db × Db) := List.replicate 4 (hourDb, hourDb)

theorem throughput_accounted_hour : ∃ o m',
    Execs 1 (StatsService.compute 3731 (7461 / 2) fun _ => 0) hourDb hourSteps (some o) m' ∧
      o.throughputLastHour.head?.map (fun p => (p.minute, p.succeeded, p.failed)) =
        some (120, 0, 1) ∧
      Accounts (7461 / 2) (Snapshot.attempts (hourDb.view 1)) o.throughputLastHour := by
  have hsettled : Txn.Settled (.seed hourRows) 3731 hourDb := .seed (by decide) 3731
  have hwf : hourDb.WF := hsettled.wf
  have hquiet : Txn.Others 1 hourDb hourDb := .refl hwf
  have hexecs : Execs 1 (StatsService.compute 3731 (7461 / 2) fun _ => 0) hourDb hourSteps _ _ :=
    .run hquiet rfl (.run hquiet rfl (.run hquiet rfl (.run hquiet rfl (.ret _ _))))
  obtain ⟨s, hs, -, haccounts⟩ := throughput_accounted hexecs
  obtain rfl : s = (hourDb, hourDb) := List.eq_of_mem_replicate hs
  have hended : ((Snapshot.attempts (hourDb.view 1)).all fun a =>
      a.finishedAt.all fun f => f ≤ 7461 / 2) = true := by decide +kernel
  refine ⟨_, _, hexecs, by decide +kernel, haccounts fun a ha f hf => ?_⟩
  have hall := List.all_eq_true.mp hended a ha
  rwa [hf, Option.all_some, decide_eq_true_eq] at hall

end Example

end Chronos
