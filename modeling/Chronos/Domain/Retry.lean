import Mathlib.Algebra.Order.Field.Rat

namespace Chronos

-- What the modelled code raises. The services' own errors carry their detail text; the others
-- come from the standard library, SQLAlchemy and croniter.
inductive PyError
  | valueError (detail : String)
  | notFound (detail : String)
  | conflict (detail : String)
  | forbidden (detail : String)
  | unauthorized (detail : String)
  | integrity
  | dataError
  | staleData
  | attributeError
  | missingGreenlet
  | croniterBadDate
deriving DecidableEq, Repr

inductive RetryStrategy
  | fixed
  | linear
  | exponential
deriving DecidableEq, Repr

structure RetryPolicy where
  maxAttempts : Int
  backoffBaseSeconds : Int
  backoffFactor : ℚ
  backoffMaxSeconds : Int
  strategy : RetryStrategy
deriving DecidableEq

structure FailureDecision where
  retry : Bool
  delaySeconds : ℚ
deriving DecidableEq

-- One draw of rng.random(). The end 1 of the interval is a draw of the tests' generators only.
structure Draw where
  val : ℚ
  nonneg : 0 ≤ val
  le_one : val ≤ 1

def Draw.zero : Draw := ⟨0, le_refl 0, rfl⟩

def computeBackoffSeconds (policy : RetryPolicy) (attemptNumber : Int) (rng : Draw) :
    Except PyError ℚ :=
  if attemptNumber < 1 then
    .error (.valueError "attempt_number must be >= 1")
  else
    let raw : ℚ := match policy.strategy with
      | .fixed => policy.backoffBaseSeconds
      | .linear => policy.backoffBaseSeconds * attemptNumber
      | .exponential =>
          policy.backoffBaseSeconds * policy.backoffFactor ^ (attemptNumber - 1).toNat
    let capped := min raw policy.backoffMaxSeconds
    let jitter := capped * (1 / 5) * rng.val
    .ok (capped + jitter)

def decideFailure (policy : RetryPolicy) (attemptNumber : Int) (rng : Draw) :
    Except PyError FailureDecision :=
  if attemptNumber ≥ policy.maxAttempts then
    .ok ⟨false, 0⟩
  else
    match computeBackoffSeconds policy attemptNumber rng with
    | .ok delay => .ok ⟨true, delay⟩
    | .error e => .error e

theorem computeBackoffSeconds_ok (policy : RetryPolicy) {n : Int} (rng : Draw) (hn : 1 ≤ n) :
    ∃ delay, computeBackoffSeconds policy n rng = .ok delay := by
  unfold computeBackoffSeconds
  rw [if_neg (by omega)]
  exact ⟨_, rfl⟩

-- The decision never fails on an attempt that was really claimed.
theorem decideFailure_ok (policy : RetryPolicy) {n : Int} (rng : Draw) (hn : 1 ≤ n) :
    ∃ decision, decideFailure policy n rng = .ok decision := by
  unfold decideFailure
  split
  · exact ⟨_, rfl⟩
  · obtain ⟨delay, hd⟩ := computeBackoffSeconds_ok policy rng hn
    exact ⟨⟨true, delay⟩, by rw [hd]⟩

theorem decideFailure_retry {policy : RetryPolicy} {n : Int} {rng : Draw}
    {decision : FailureDecision} (h : decideFailure policy n rng = .ok decision) :
    decision.retry = true ↔ n < policy.maxAttempts := by
  unfold decideFailure at h
  split at h
  · rename_i hn
    cases h
    simp only [Bool.false_eq_true, false_iff]
    omega
  · rename_i hn
    split at h
    · cases h
      simp only [true_iff]
      omega
    · cases h

end Chronos
