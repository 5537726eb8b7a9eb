import Chronos.Repositories.Jobs
import Mathlib.Data.Int.ConditionallyCompleteOrder
import Mathlib.Tactic.Linarith
import Mathlib.Tactic.NormNum

namespace Chronos

open JobRepository

variable {aging : Aging} {now : Time} {i b : Int} {j k : Job}

-- ORDER BY puts `j` before `k`, whatever else it sorts.
structure Precedes (aging : Aging) (now : Time) (j k : Job) : Prop where
  le : claimsBefore aging now j k = true
  lt : claimsBefore aging now k j = false

theorem claimsBefore_iff : claimsBefore aging now j k = true ↔
    priorityKey aging now k < priorityKey aging now j ∨
      priorityKey aging now j = priorityKey aging now k ∧
        (j.runAt < k.runAt ∨ j.runAt = k.runAt ∧ j.createdAt ≤ k.createdAt) := by
  rw [claimsBefore, decide_eq_true_eq]

theorem claimsBefore_total (aging : Aging) (now : Time) (j k : Job) :
    claimsBefore aging now j k = true ∨ claimsBefore aging now k j = true := by
  rw [claimsBefore_iff, claimsBefore_iff]
  rcases lt_trichotomy (priorityKey aging now j) (priorityKey aging now k) with hlt | heq | hgt
  · exact .inr (.inl hlt)
  · rcases lt_trichotomy j.runAt k.runAt with hrun | hrun | hrun
    · exact .inl (.inr ⟨heq, .inl hrun⟩)
    · rcases le_total j.createdAt k.createdAt with hc | hc
      · exact .inl (.inr ⟨heq, .inr ⟨hrun, hc⟩⟩)
      · exact .inr (.inr ⟨heq.symm, .inr ⟨hrun.symm, hc⟩⟩)
    · exact .inr (.inr ⟨heq.symm, .inl hrun⟩)
  · exact .inl (.inl hgt)

theorem claimsBefore_trans {l : Job} (h : claimsBefore aging now j k = true)
    (h' : claimsBefore aging now k l = true) : claimsBefore aging now j l = true := by
  rw [claimsBefore_iff] at h h' ⊢
  rcases h with hkey | ⟨hkey, htie⟩
  · rcases h' with hkey' | ⟨hkey', -⟩
    · exact .inl (hkey'.trans hkey)
    · exact .inl (hkey' ▸ hkey)
  · rcases h' with hkey' | ⟨hkey', htie'⟩
    · exact .inl (hkey ▸ hkey')
    · refine .inr ⟨hkey.trans hkey', ?_⟩
      rcases htie with hrun | ⟨hrun, hc⟩
      · exact .inl (htie'.elim (hrun.trans ·) fun h => h.1 ▸ hrun)
      · exact htie'.imp (hrun ▸ ·) fun h => ⟨hrun.trans h.1, hc.trans h.2⟩

theorem priorityKey_of_pos (hi : 0 < i) (now : Time) (job : Job) :
    priorityKey ⟨i, b⟩ now job = job.priority + min ⌊(now - job.runAt) / i⌋ b :=
  if_pos hi

-- The boost of a job that has waited for the whole of the capped range.
theorem boost_eq_cap (hi : 0 < i) (h : (i * b : ℚ) ≤ now - j.runAt) :
    min ⌊(now - j.runAt) / i⌋ b = b := by
  have hi' : (0 : ℚ) < i := by exact_mod_cast hi
  refine min_eq_right (Int.le_floor.mpr ?_)
  rw [le_div_iff₀ hi']
  linarith

-- With different ready times the tie is broken, and the keys decide.
theorem precedes_iff_key (hrun : j.runAt < k.runAt) :
    Precedes aging now j k ↔ priorityKey aging now k ≤ priorityKey aging now j := by
  constructor
  · rintro ⟨hle, -⟩
    rcases claimsBefore_iff.mp hle with hkey | ⟨hkey, -⟩
    · exact hkey.le
    · exact hkey.ge
  · intro hkey
    refine ⟨claimsBefore_iff.mpr ?_, ?_⟩
    · rcases hkey.lt_or_eq with hlt | heq
      · exact .inl hlt
      · exact .inr ⟨heq.symm, .inl hrun⟩
    · rw [← Bool.not_eq_true, claimsBefore_iff, not_or, not_and]
      refine ⟨hkey.not_gt, fun _ h => ?_⟩
      rcases h with h | h
      · exact h.not_gt hrun
      · exact hrun.ne h.1.symm

theorem floor_age_le (hi : 0 < i) (n : Int) :
    ⌊(now - k.runAt) / i⌋ ≤ n ↔ now - k.runAt < i * (n + 1 : Int) := by
  have hi' : (0 : ℚ) < i := by exact_mod_cast hi
  rw [← Int.lt_add_one_iff, Int.floor_lt, div_lt_iff₀' hi']

-- A job that has waited for i * b seconds goes before one that got ready i * b seconds later if and
-- only if the other has no higher priority or has not waited long enough itself to catch up.
theorem aging_bound (hi : 0 < i) (hb : 200 ≤ b) (hj : (i * b : ℚ) ≤ now - j.runAt)
    (hk : j.runAt + i * b ≤ k.runAt) :
    Precedes ⟨i, b⟩ now j k ↔
      k.priority ≤ j.priority ∨ now - k.runAt < i * (b - (k.priority - j.priority) + 1 : Int) := by
  have hspan : (0 : ℚ) < i * b := by
    have hpos : 0 < i * b := Int.mul_pos hi (by omega)
    exact_mod_cast hpos
  rw [precedes_iff_key (by linarith), priorityKey_of_pos hi, priorityKey_of_pos hi,
    boost_eq_cap hi hj, ← floor_age_le hi]
  constructor
  · intro hkey
    by_cases hle : k.priority ≤ j.priority
    · exact .inl hle
    · have hmin : min ⌊(now - k.runAt) / i⌋ b ≤ b - (k.priority - j.priority) := by omega
      rcases min_le_iff.mp hmin with h | h
      · exact .inr h
      · omega
  · rintro (hle | hage)
    · have hmin : min ⌊(now - k.runAt) / i⌋ b ≤ b := min_le_right _ _
      omega
    · have hmin : min ⌊(now - k.runAt) / i⌋ b ≤ ⌊(now - k.runAt) / i⌋ := min_le_left _ _
      omega

-- A job of the given priority that is ready from the given instant on.
def waitingJob (priority : Int) (runAt : Time) : Job where
  id := 0
  ownerId := 0
  queueId := 0
  queue := "default"
  taskName := "report"
  batchId := none
  workflowId := none
  payload := "{}"
  status := .pending
  priority := priority
  runAt := runAt
  idempotencyKey := none
  maxAttempts := 3
  backoffStrategy := .exponential
  attemptCount := 0
  timeoutSeconds := 300
  backoffBaseSeconds := 5
  backoffFactor := 2
  backoffMaxSeconds := 300
  lockedBy := none
  leaseExpiresAt := none
  lastError := none
  aiSummary := none
  result := none
  createdAt := runAt
  startedAt := none
  finishedAt := none

-- With the defaults, against a job that got ready this very minute.
theorem aging_bound_fresh : Precedes ⟨60, 200⟩ 12030 (waitingJob (-100) 0) (waitingJob 100 12000) :=
  (aging_bound (by norm_num) (by norm_num) (by norm_num [waitingJob])
    (by norm_num [waitingJob])).mpr (.inr (by norm_num [waitingJob]))

-- Under an overload both jobs reach the cap of the boost.
theorem capped_boosts_starve : ¬ ∀ (i b : Int) (now : Time) (j k : Job), 0 < i → 200 ≤ b →
    j.priority ∈ Set.Icc (-100) 100 → k.priority ∈ Set.Icc (-100) 100 → k.runAt ≤ now →
      (i * b : ℚ) ≤ now - j.runAt → j.runAt + i * b ≤ k.runAt → Precedes ⟨i, b⟩ now j k := by
  intro h
  have hfirst := h 60 200 24000 (waitingJob (-100) 0) (waitingJob 100 12000) (by norm_num)
    (by norm_num) ⟨by norm_num [waitingJob], by norm_num [waitingJob]⟩
    ⟨by norm_num [waitingJob], by norm_num [waitingJob]⟩ (by norm_num [waitingJob])
    (by norm_num [waitingJob]) (by norm_num [waitingJob])
  have hkey := (precedes_iff_key (by norm_num [waitingJob])).mp hfirst
  norm_num [priorityKey, waitingJob] at hkey

end Chronos
