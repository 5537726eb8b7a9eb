import Chronos.Domain.Retry
import Mathlib.Tactic.Linarith
import Mathlib.Tactic.NormNum
import Mathlib.Algebra.Order.Ring.Pow

namespace Chronos

variable {policy : RetryPolicy} {n m : Int} {rng : Draw}

-- The CHECK constraints of the backoff columns.
structure RetryPolicy.InRange (policy : RetryPolicy) : Prop where
  base_nonneg : 0 ≤ policy.backoffBaseSeconds
  base_le : policy.backoffBaseSeconds ≤ 3600
  one_le_factor : 1 ≤ policy.backoffFactor
  factor_le : policy.backoffFactor ≤ 10
  one_le_max : 1 ≤ policy.backoffMaxSeconds
  max_le : policy.backoffMaxSeconds ≤ 86400

namespace RetryPolicy

def raw (policy : RetryPolicy) (n : Int) : ℚ :=
  match policy.strategy with
  | .fixed => policy.backoffBaseSeconds
  | .linear => policy.backoffBaseSeconds * n
  | .exponential => policy.backoffBaseSeconds * policy.backoffFactor ^ (n - 1).toNat

-- The delay before the jitter.
def capped (policy : RetryPolicy) (n : Int) : ℚ := min (policy.raw n) policy.backoffMaxSeconds

def withStrategy (policy : RetryPolicy) (strategy : RetryStrategy) : RetryPolicy :=
  { policy with strategy := strategy }

end RetryPolicy

theorem computeBackoffSeconds_eq (hn : 1 ≤ n) :
    computeBackoffSeconds policy n rng =
      .ok (policy.capped n + policy.capped n * (1 / 5) * rng.val) := by
  have hlt : ¬ n < 1 := by omega
  unfold computeBackoffSeconds
  rw [if_neg hlt]
  rfl

section Raw

theorem raw_one : policy.raw 1 = policy.backoffBaseSeconds := by
  unfold RetryPolicy.raw
  cases policy.strategy with
  | fixed => rfl
  | linear => simp
  | exponential => simp

variable (h : policy.InRange)
include h

theorem base_nonneg : (0 : ℚ) ≤ policy.backoffBaseSeconds := by
  exact_mod_cast h.base_nonneg

-- From one attempt to any later one the delay grows, whatever the strategy.
theorem raw_mono (hmn : m ≤ n) : policy.raw m ≤ policy.raw n := by
  have hbase := base_nonneg h
  unfold RetryPolicy.raw
  cases policy.strategy with
  | fixed => exact le_refl _
  | linear =>
      have hcast : (m : ℚ) ≤ n := by exact_mod_cast hmn
      exact mul_le_mul_of_nonneg_left hcast hbase
  | exponential =>
      have hexp : (m - 1).toNat ≤ (n - 1).toNat := by omega
      have hpow := pow_le_pow_right₀ h.one_le_factor hexp
      exact mul_le_mul_of_nonneg_left hpow hbase

theorem raw_nonneg (hn : 1 ≤ n) : 0 ≤ policy.raw n := by
  have hmono := raw_mono h hn
  rw [raw_one] at hmono
  exact (base_nonneg h).trans hmono

theorem capped_mono (hmn : m ≤ n) : policy.capped m ≤ policy.capped n :=
  min_le_min_right _ (raw_mono h hmn)

theorem capped_nonneg (hn : 1 ≤ n) : 0 ≤ policy.capped n := by
  have hmax : (0 : ℚ) ≤ policy.backoffMaxSeconds := by
    have hone := h.one_le_max
    exact_mod_cast (by omega : 0 ≤ policy.backoffMaxSeconds)
  exact le_min (raw_nonneg h hn) hmax

theorem inRange_withStrategy (strategy : RetryStrategy) : (policy.withStrategy strategy).InRange :=
  ⟨h.base_nonneg, h.base_le, h.one_le_factor, h.factor_le, h.one_le_max, h.max_le⟩

omit h in
theorem capped_one (strategy : RetryStrategy) :
    (policy.withStrategy strategy).capped 1 = policy.capped 1 := by
  unfold RetryPolicy.capped
  rw [raw_one, raw_one]
  rfl

-- The fixed delay is that of the first attempt of any other strategy.
theorem fixed_le (strategy : RetryStrategy) (hn : 1 ≤ n) :
    (policy.withStrategy .fixed).capped n ≤ (policy.withStrategy strategy).capped n := by
  have hfirst := capped_mono (inRange_withStrategy h strategy) hn
  rw [capped_one strategy, ← capped_one .fixed] at hfirst
  exact hfirst

-- The jitter adds a fifth of the delay at most.
theorem jitter_bounds (hn : 1 ≤ n) (rng : Draw) :
    policy.capped n ≤ policy.capped n + policy.capped n * (1 / 5) * rng.val ∧
      policy.capped n + policy.capped n * (1 / 5) * rng.val ≤ 6 / 5 * policy.capped n := by
  have hfifth : 0 ≤ policy.capped n * (1 / 5) := by
    have hc := capped_nonneg h hn
    linarith
  have hlow := mul_nonneg hfifth rng.nonneg
  have hhigh := mul_le_mul_of_nonneg_left rng.le_one hfifth
  constructor
  · linarith
  · linarith

end Raw

-- What the delays of a policy obey.
structure BackoffLaw (policy : RetryPolicy) : Prop where
  jitter : ∀ n rng, 1 ≤ n → ∃ d, computeBackoffSeconds policy n rng = .ok d ∧
    policy.capped n ≤ d ∧ d ≤ 6 / 5 * policy.capped n
  mono : ∀ m n, 1 ≤ m → m ≤ n → policy.capped m ≤ policy.capped n
  bounded : ∀ n, 1 ≤ n → policy.capped n ≤ policy.backoffMaxSeconds
  first : ∀ strategy rng, computeBackoffSeconds (policy.withStrategy strategy) 1 rng =
    computeBackoffSeconds policy 1 rng
  dominates : ∀ n, 1 ≤ n →
    (policy.withStrategy .fixed).capped n ≤ (policy.withStrategy .exponential).capped n
  retries : ∀ n rng, 1 ≤ n → n < policy.maxAttempts → ∃ d,
    computeBackoffSeconds policy n rng = .ok d ∧ decideFailure policy n rng = .ok ⟨true, d⟩
  gives_up : ∀ n rng, 1 ≤ n → policy.maxAttempts ≤ n → decideFailure policy n rng = .ok ⟨false, 0⟩

theorem backoff_law (h : policy.InRange) : BackoffLaw policy where
  jitter n rng hn := ⟨_, computeBackoffSeconds_eq hn, jitter_bounds h hn rng⟩
  mono m n _ hmn := capped_mono h hmn
  bounded n _ := min_le_right _ _
  first strategy rng := by
    rw [computeBackoffSeconds_eq (le_refl 1), computeBackoffSeconds_eq (le_refl 1),
      capped_one strategy]
  dominates n hn := fixed_le h .exponential hn
  retries n rng hn hmax := by
    have hlt : ¬ n ≥ policy.maxAttempts := by omega
    refine ⟨_, computeBackoffSeconds_eq hn, ?_⟩
    unfold decideFailure
    rw [if_neg hlt, computeBackoffSeconds_eq hn]
  gives_up n rng hn hmax := by
    unfold decideFailure
    rw [if_pos hmax]

-- Base 5, factor 2: the third attempt waits 20 seconds, and up to 4 more.
theorem backoff_law_doubling : (⟨3, 5, 2, 300, .exponential⟩ : RetryPolicy).capped 3 = 20 ∧
    BackoffLaw ⟨3, 5, 2, 300, .exponential⟩ :=
  ⟨by decide +kernel, backoff_law ⟨by decide, by decide, by decide +kernel, by decide +kernel,
    by decide, by decide⟩⟩

end Chronos
