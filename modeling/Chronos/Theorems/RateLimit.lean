import Chronos.Events.RateLimit
import Mathlib.Data.Finset.Card
import Mathlib.Order.Interval.Finset.Nat
import Mathlib.Tactic.Linarith

namespace Chronos

open Txn (Reaches)

variable {limit : Nat} {windowSeconds : ℚ} {s s' : Limiter} {ev : LimiterEvent} {i j : CheckId}
  {c : Check}

namespace Limiter

def reached (s : Limiter) (i : CheckId) : Option Counter := (s.check i).bind (Check.reached i)

def hasEnded (s : Limiter) (i : CheckId) : Bool := (s.check i).any Check.ended

-- A call that Redis has counted in the window, and that has returned True.
def admittedIn (s : Limiter) (window : CheckId) (i : CheckId) : Bool :=
  (s.reached i).any (fun counter => counter.window = window) &&
    (s.check i).any fun c => c.result = some true

-- A first count whose EXPIRE has not been made.
def firstPending (c : Check) : Bool :=
  match c.stage with
  | .incremented _ count => count = 1
  | .expiring => true
  | _ => false

-- No call that has counted beyond the limit ends by an exception.
def keepsLimit (limit : Nat) (s : Limiter) : LimiterEvent → Bool
  | .fail i => (s.reached i).all fun counter => counter.count ≤ limit
  | _ => true

-- No call that has created the counter ends before its EXPIRE.
def keepsExpiry (s : Limiter) : LimiterEvent → Bool
  | .fail i => (s.check i).all fun c => !firstPending c
  | .crash i => (s.check i).all fun c => !firstPending c
  | _ => true

-- No counter without an expiry is left behind.
def Expires (s : Limiter) : Prop :=
  ∀ k e, s.redis k = some e → s.hasEnded e.value.window = true → e.expiresAt ≠ none

def Soon (windowSeconds : ℚ) (s : Limiter) : Prop :=
  ∀ k e x, s.redis k = some e → e.expiresAt = some x → x ≤ s.clock + windowSeconds

structure Limited (limit : Nat) (windowSeconds : ℚ) (s : Limiter) : Prop where
  admitted : ∀ window, (s.checks.filter (s.admittedIn window)).length ≤ limit
  expires : s.Expires
  soon : s.Soon windowSeconds

-- What a step can do.
inductive Move (limit : Nat) (windowSeconds : ℚ) (s : Limiter) : LimiterEvent → Limiter → Prop
  | tick (now : ℚ) (hnow : s.clock ≤ now) : Move limit windowSeconds s (.tick now)
      { s with clock := now }
  | call (i : CheckId) (key : String) (hi : s.check i = none) :
      Move limit windowSeconds s (.call i key)
        { s.set i ⟨key, .called⟩ with checks := i :: s.checks }
  | incr (i : CheckId) (key : String) (hi : s.check i = some ⟨key, .called⟩) :
      Move limit windowSeconds s (.incr i) (s.incr i ⟨key, .called⟩)
  | first (i : CheckId) (key : String) (window : CheckId)
      (hi : s.check i = some ⟨key, .incremented window 1⟩) :
      Move limit windowSeconds s (.reply i) (s.set i ⟨key, .expiring⟩)
  | expire (i : CheckId) (key : String) (hi : s.check i = some ⟨key, .expiring⟩) :
      Move limit windowSeconds s (.expire i) (s.expire windowSeconds i ⟨key, .expiring⟩)
  | finish (ev : LimiterEvent) (i : CheckId) (c : Check) (result : Option Bool)
      (hi : s.check i = some c)
      (hev : ev = .reply i ∧ firstPending c = false ∨ ev = .fail i ∨ ev = .crash i)
      (hresult : result = some true → ev = .fail i ∨
        ∃ counter, c.reached i = some counter ∧ counter.count ≤ limit) :
      Move limit windowSeconds s ev (s.finish i c result)

theorem move_of_step (h : step limit windowSeconds s ev = some s') :
    Move limit windowSeconds s ev s' := by
  cases ev with
  | tick now =>
      simp only [step] at h
      split at h
      · rename_i hnow
        cases h
        exact .tick now hnow
      · cases h
  | call i key =>
      simp only [step] at h
      split at h
      · rename_i hi
        cases h
        exact .call i key hi
      · cases h
  | incr i =>
      simp only [step] at h
      split at h
      · rename_i key hi
        cases h
        exact .incr i key hi
      · cases h
  | reply i =>
      simp only [step] at h
      split at h
      · rename_i key window count hi
        split at h
        · rename_i hcount
          cases h
          subst hcount
          exact .first i key window hi
        · rename_i hcount
          cases h
          refine .finish _ i _ _ hi (.inl ⟨rfl, ?_⟩) fun hresult => .inr ⟨_, rfl, ?_⟩
          · simp [firstPending, hcount]
          · simpa using hresult
      · rename_i key hi
        cases h
        refine .finish _ i _ _ hi (.inl ⟨rfl, rfl⟩) fun hresult => .inr ⟨_, rfl, ?_⟩
        simpa using hresult
      · cases h
  | expire i =>
      simp only [step] at h
      split at h
      · rename_i key hi
        cases h
        exact .expire i key hi
      · cases h
  | fail i =>
      simp only [step] at h
      split at h
      · rename_i c hi
        split at h
        · cases h
        · cases h
          exact .finish _ i c _ hi (.inr (.inl rfl)) fun _ => .inl rfl
      · cases h
  | crash i =>
      simp only [step] at h
      split at h
      · rename_i c hi
        split at h
        · cases h
        · cases h
          exact .finish _ i c _ hi (.inr (.inr rfl)) fun h => by cases h
      · cases h

-- What is counted, and in which window, in every run.
structure CountInv (s : Limiter) : Prop where
  nodup : s.checks.Nodup
  listed : ∀ i, i ∈ s.checks ↔ s.check i ≠ none
  pos : ∀ i counter, s.reached i = some counter → 1 ≤ counter.count
  creator : ∀ i counter, s.reached i = some counter →
    s.reached counter.window = some ⟨counter.window, 1⟩
  injective : ∀ i j counter, s.reached i = some counter → s.reached j = some counter → i = j
  bound : ∀ k e i n, s.redis k = some e → s.reached i = some ⟨e.value.window, n⟩ →
    n ≤ e.value.count
  key : ∀ k e, s.redis k = some e → ∃ c, s.check e.value.window = some c ∧ c.fullKey = k ∧
    c.reached e.value.window = some ⟨e.value.window, 1⟩
  -- Until its EXPIRE the counter a call has created stays.
  pending : ∀ i c, s.check i = some c → c.reached i = some ⟨i, 1⟩ → firstPending c = true →
    ∃ e, s.redis c.fullKey = some e ∧ e.value.window = i ∧ e.expiresAt = none

theorem countInv_initial (now : ℚ) : CountInv (initial now) where
  nodup := List.nodup_nil
  listed i := by simp [initial]
  pos i counter h := by cases h
  creator i counter h := by cases h
  injective i j counter h := by cases h
  bound k e i n h := by cases h
  key k e h := by cases h
  pending i c h := by cases h

theorem reached_some (hi : s.check i = some c) : s.reached i = c.reached i := by
  rw [reached, hi, Option.bind_some]

@[simp] theorem set_check_self : (s.set i c).check i = some c := by
  simp [set]

theorem set_check_ne (h : j ≠ i) : (s.set i c).check j = s.check j := by
  simp [set, h]

theorem fullKey_congr {c' : Check} (h : c'.key = c.key) : c'.fullKey = c.fullKey :=
  congrArg (fun key => "chronos:ratelimit:" ++ key) h

-- Steps that Redis has no part in.
theorem CountInv.of_same (h : CountInv s) (hredis : s'.redis = s.redis)
    (hreached : ∀ j, s'.reached j = s.reached j) (hnodup : s'.checks.Nodup)
    (hlisted : ∀ j, j ∈ s'.checks ↔ s'.check j ≠ none)
    (hkept : ∀ j c, s.check j = some c → ∃ c', s'.check j = some c' ∧ c'.key = c.key)
    (hpending : ∀ j c', s'.check j = some c' → firstPending c' = true →
      ∃ c, s.check j = some c ∧ c.key = c'.key ∧ firstPending c = true) : CountInv s' := by
  have hsame : s'.reached = s.reached := funext hreached
  refine ⟨hnodup, hlisted, hsame ▸ h.pos, hsame ▸ h.creator, hsame ▸ h.injective, ?_, ?_, ?_⟩
  · rw [hredis, hsame]
    exact h.bound
  · intro k e he
    rw [hredis] at he
    obtain ⟨c, hc, hk, hone⟩ := h.key k e he
    obtain ⟨c', hc', hkey⟩ := hkept _ c hc
    refine ⟨c', hc', (fullKey_congr hkey).trans hk, ?_⟩
    rw [← reached_some hc', hsame, reached_some hc, hone]
  · intro j c' hc' hone hfirst
    obtain ⟨c, hc, hkey, hfirst⟩ := hpending j c' hc' hfirst
    rw [hredis, fullKey_congr hkey.symm]
    refine h.pending j c hc ?_ hfirst
    rw [← reached_some hc, ← hsame, reached_some hc', hone]

theorem reached_set {c' : Check} (hi : s.check i = some c) (hreached : c'.reached i = c.reached i)
    (j : CheckId) : (s.set i c').reached j = s.reached j := by
  by_cases hji : j = i
  · subst hji
    rw [reached_some set_check_self, reached_some hi, hreached]
  · rw [reached, reached, set_check_ne hji]

theorem CountInv.set (h : CountInv s) {c' : Check} (hi : s.check i = some c)
    (hkey : c'.key = c.key) (hreached : c'.reached i = c.reached i)
    (hpending : firstPending c' = true → firstPending c = true) : CountInv (s.set i c') := by
  refine h.of_same rfl (reached_set hi hreached) h.nodup (fun j => ?_) (fun j d hd => ?_)
    fun j d hd hfirst => ?_
  · rw [show (s.set i c').checks = s.checks from rfl, h.listed j]
    by_cases hji : j = i
    · subst hji
      simp [hi]
    · rw [set_check_ne hji]
  · by_cases hji : j = i
    · subst hji
      obtain rfl := Option.some.inj (hi.symm.trans hd)
      exact ⟨c', set_check_self, hkey⟩
    · exact ⟨d, (set_check_ne hji).trans hd, rfl⟩
  · by_cases hji : j = i
    · subst hji
      obtain rfl := Option.some.inj (set_check_self.symm.trans hd)
      exact ⟨c, hi, hkey.symm, hpending hfirst⟩
    · exact ⟨d, (set_check_ne hji).symm.trans hd, rfl, hfirst⟩

theorem CountInv.call (h : CountInv s) {key : String} (hi : s.check i = none) :
    CountInv { s.set i ⟨key, .called⟩ with checks := i :: s.checks } := by
  have hnew : i ∉ s.checks := fun hmem => (h.listed i).mp hmem hi
  have hself : (s.set i ⟨key, .called⟩).check i = some ⟨key, .called⟩ := set_check_self
  refine h.of_same rfl (fun j => ?_) (List.nodup_cons.mpr ⟨hnew, h.nodup⟩) (fun j => ?_)
    (fun j d hd => ?_) fun j d hd hfirst => ?_
  · show ((s.set i ⟨key, .called⟩).check j).bind (Check.reached j) = s.reached j
    by_cases hji : j = i
    · subst hji
      rw [hself, reached, hi]
      rfl
    · rw [set_check_ne hji]
      rfl
  · show j ∈ i :: s.checks ↔ (s.set i ⟨key, .called⟩).check j ≠ none
    rw [List.mem_cons, h.listed j]
    by_cases hji : j = i
    · subst hji
      simp
    · simp [set_check_ne hji, hji]
  · by_cases hji : j = i
    · subst hji
      rw [hi] at hd
      cases hd
    · exact ⟨d, (set_check_ne hji).trans hd, rfl⟩
  · by_cases hji : j = i
    · subst hji
      obtain rfl := Option.some.inj (hself.symm.trans hd)
      cases hfirst
    · exact ⟨d, (set_check_ne hji).symm.trans hd, rfl, hfirst⟩

theorem incr_reached (s : Limiter) (i : CheckId) (c : Check) (j : CheckId) :
    (s.incr i c).reached j = if j = i then some (s.counted i c) else s.reached j := by
  by_cases hji : j = i
  · subst hji
    simp [Limiter.reached, incr, set, Check.reached]
  · simp [Limiter.reached, incr, set, hji]

theorem incr_redis_self (s : Limiter) (i : CheckId) (c : Check) :
    (s.incr i c).redis c.fullKey =
      some ⟨s.counted i c, (Redis.lookup s.clock c.fullKey s.redis).bind Redis.Entry.expiresAt⟩ := by
  simp [incr, Redis.put]

theorem incr_redis_ne (s : Limiter) (i : CheckId) (c : Check) {k : String} (hk : k ≠ c.fullKey) :
    (s.incr i c).redis k = s.redis k := by
  simp [incr, Redis.put, hk]

section Incr

variable (h : CountInv s) (hi : s.check i = some c) (hstage : c.stage = .called)
include hi hstage

theorem reached_called : s.reached i = none := by
  rw [reached_some hi]
  simp [Check.reached, hstage]

include h

-- The counter that an INCR leaves: the first of a window of its own, or the next of the window
-- that is open.
theorem counted_cases :
    (Redis.lookup s.clock c.fullKey s.redis = none ∧ s.counted i c = ⟨i, 1⟩) ∨
      ∃ e, s.redis c.fullKey = some e ∧ Redis.lookup s.clock c.fullKey s.redis = some e ∧
        e.value.window ≠ i ∧ s.counted i c = ⟨e.value.window, e.value.count + 1⟩ := by
  cases hlook : Redis.lookup s.clock c.fullKey s.redis with
  | none => exact .inl ⟨rfl, by simp [counted, Redis.get, hlook]⟩
  | some e =>
      have he := (Redis.lookup_eq_some.mp hlook).1
      refine .inr ⟨e, he, rfl, fun hw => ?_, by simp [counted, Redis.get, hlook]⟩
      obtain ⟨d, hd, -, hone⟩ := h.key _ e he
      have hreached : s.reached e.value.window = some ⟨e.value.window, 1⟩ :=
        (reached_some hd).trans hone
      rw [hw, reached_called hi hstage] at hreached
      cases hreached

theorem not_window {counter : Counter} (hj : s.reached j = some counter) :
    counter.window ≠ i := by
  intro hw
  have hcreator := h.creator j counter hj
  rw [hw, reached_called hi hstage] at hcreator
  cases hcreator

-- Nobody has been counted as what `i` is counted as.
theorem counted_new (j : CheckId) : s.reached j ≠ some (s.counted i c) := by
  intro hj
  rcases counted_cases h hi hstage with ⟨-, hcount⟩ | ⟨e, he, -, -, hcount⟩
  · rw [hcount] at hj
    exact not_window h hi hstage hj rfl
  · rw [hcount] at hj
    have hle := h.bound _ e j _ he hj
    omega

theorem incr_pos {counter : Counter} (hj : (s.incr i c).reached j = some counter) :
    1 ≤ counter.count := by
  rw [incr_reached] at hj
  split at hj
  · obtain rfl := Option.some.inj hj
    rcases counted_cases h hi hstage with ⟨-, hcount⟩ | ⟨e, -, -, -, hcount⟩
    · simp [hcount]
    · simp [hcount]
  · exact h.pos j counter hj

theorem incr_creator {counter : Counter} (hj : (s.incr i c).reached j = some counter) :
    (s.incr i c).reached counter.window = some ⟨counter.window, 1⟩ := by
  rw [incr_reached] at hj
  split at hj
  · obtain rfl := Option.some.inj hj
    rcases counted_cases h hi hstage with ⟨-, hcount⟩ | ⟨e, he, -, hwindow, hcount⟩
    · simp [incr_reached, hcount]
    · obtain ⟨d, hd, -, hone⟩ := h.key _ e he
      rw [incr_reached, hcount, if_neg hwindow, reached_some hd, hone]
  · rw [incr_reached, if_neg (not_window h hi hstage hj)]
    exact h.creator j counter hj

theorem incr_injective {k : CheckId} {counter : Counter}
    (hj : (s.incr i c).reached j = some counter) (hk : (s.incr i c).reached k = some counter) :
    j = k := by
  rw [incr_reached] at hj hk
  split at hj
  · rename_i hji
    split at hk
    · rename_i hki
      exact hji.trans hki.symm
    · exact absurd (hk.trans hj.symm) (counted_new h hi hstage k)
  · split at hk
    · exact absurd (hj.trans hk.symm) (counted_new h hi hstage j)
    · exact h.injective j k counter hj hk

-- The counter of a key belongs to a window that was opened there.
theorem fullKey_of_window {k : String} {e : Redis.Entry Counter ℚ} (he : s.redis k = some e)
    (hw : e.value.window = (s.counted i c).window) : k = c.fullKey := by
  obtain ⟨d, hd, hkey, hone⟩ := h.key k e he
  rcases counted_cases h hi hstage with ⟨-, hcount⟩ | ⟨e', he', -, -, hcount⟩
  · rw [hw, hcount] at hd
    obtain rfl := Option.some.inj (hi.symm.trans hd)
    exact hkey.symm
  · obtain ⟨d', hd', hkey', -⟩ := h.key _ e' he'
    rw [hw, hcount] at hd
    obtain rfl := Option.some.inj (hd.symm.trans hd')
    exact hkey.symm.trans hkey'

theorem incr_bound {k : String} {e : Redis.Entry Counter ℚ} {n : Nat}
    (he : (s.incr i c).redis k = some e)
    (hj : (s.incr i c).reached j = some ⟨e.value.window, n⟩) : n ≤ e.value.count := by
  rw [incr_reached] at hj
  by_cases hk : k = c.fullKey
  · subst hk
    rw [incr_redis_self, Option.some.injEq] at he
    subst he
    split at hj
    · rw [Option.some.injEq] at hj
      exact (congrArg Counter.count hj).ge
    · rcases counted_cases h hi hstage with ⟨-, hcount⟩ | ⟨e, he, -, -, hcount⟩
      · rw [hcount] at hj
        exact absurd rfl (not_window h hi hstage hj)
      · rw [hcount] at hj ⊢
        exact (h.bound _ e j n he hj).trans (Nat.le_succ _)
  · rw [incr_redis_ne s i c hk] at he
    split at hj
    · have hw := congrArg Counter.window (Option.some.inj hj)
      exact absurd (fullKey_of_window h hi hstage he hw.symm) hk
    · exact h.bound k e j n he hj

theorem incr_key {k : String} {e : Redis.Entry Counter ℚ} (he : (s.incr i c).redis k = some e) :
    ∃ d, (s.incr i c).check e.value.window = some d ∧ d.fullKey = k ∧
      d.reached e.value.window = some ⟨e.value.window, 1⟩ := by
  by_cases hk : k = c.fullKey
  · subst hk
    rw [incr_redis_self, Option.some.injEq] at he
    subst he
    rcases counted_cases h hi hstage with ⟨-, hcount⟩ | ⟨e, he, -, hwindow, hcount⟩
    · rw [hcount]
      refine ⟨_, set_check_self, fullKey_congr rfl, ?_⟩
      simp [Check.reached, hcount]
    · obtain ⟨d, hd, hkey, hone⟩ := h.key _ e he
      rw [hcount]
      exact ⟨d, (set_check_ne hwindow).trans hd, hkey, hone⟩
  · rw [incr_redis_ne s i c hk] at he
    obtain ⟨d, hd, hkey, hone⟩ := h.key k e he
    have hwindow : e.value.window ≠ i := by
      have hne := not_window h hi hstage ((reached_some hd).trans hone)
      exact hne
    exact ⟨d, (set_check_ne hwindow).trans hd, hkey, hone⟩

-- A counter that waits for its EXPIRE is open.
theorem incr_pending_other {d : Check} (hd : s.check j = some d)
    (hone : d.reached j = some ⟨j, 1⟩) (hfirst : firstPending d = true) :
    ∃ e, (s.incr i c).redis d.fullKey = some e ∧ e.value.window = j ∧ e.expiresAt = none := by
  obtain ⟨e, he, hwindow, hlasts⟩ := h.pending j d hd hone hfirst
  by_cases hk : d.fullKey = c.fullKey
  · rw [hk] at he ⊢
    have hlook := @Redis.lookup_of_lasting _ _ _ _ s.clock _ _ _ he hlasts
    rcases counted_cases h hi hstage with ⟨hlook', -⟩ | ⟨e', he', -, -, hcount⟩
    · rw [hlook] at hlook'
      cases hlook'
    · obtain rfl := Option.some.inj (he.symm.trans he')
      refine ⟨_, incr_redis_self s i c, ?_, ?_⟩
      · rw [hcount]
        exact hwindow
      · rw [hlook, Option.bind_some, hlasts]
  · exact ⟨e, (incr_redis_ne s i c hk).trans he, hwindow, hlasts⟩

theorem incr_pending {d : Check} (hd : (s.incr i c).check j = some d)
    (hone : d.reached j = some ⟨j, 1⟩) (hfirst : firstPending d = true) :
    ∃ e, (s.incr i c).redis d.fullKey = some e ∧ e.value.window = j ∧ e.expiresAt = none := by
  by_cases hji : j = i
  · subst hji
    obtain rfl := Option.some.inj (set_check_self.symm.trans hd)
    have hcount : s.counted j c = ⟨j, 1⟩ := Option.some.inj hone
    rcases counted_cases h hi hstage with ⟨hlook, -⟩ | ⟨e, -, -, hwindow, hother⟩
    · refine ⟨_, incr_redis_self s j c, ?_, ?_⟩
      · rw [hcount]
      · rw [hlook, Option.bind_none]
    · rw [hcount] at hother
      exact absurd (congrArg Counter.window hother).symm hwindow
  · rw [show (s.incr i c).check j = s.check j from set_check_ne hji] at hd
    exact incr_pending_other h hi hstage hd hone hfirst

theorem CountInv.incr : CountInv (s.incr i c) where
  nodup := h.nodup
  listed j := by
    rw [show (s.incr i c).checks = s.checks from rfl, h.listed j]
    by_cases hji : j = i
    · subst hji
      simp [hi, Limiter.incr]
    · rw [show (s.incr i c).check j = s.check j from set_check_ne hji]
  pos _ _ hj := incr_pos h hi hstage hj
  creator _ _ hj := incr_creator h hi hstage hj
  injective _ _ _ hj hk := incr_injective h hi hstage hj hk
  bound _ _ _ _ he hj := incr_bound h hi hstage he hj
  key _ _ he := incr_key h hi hstage he
  pending _ _ hd hone hfirst := incr_pending h hi hstage hd hone hfirst

end Incr

-- The first count of a window is that of the call which has created it.
theorem CountInv.of_first (h : CountInv s) {key : String} {window : CheckId}
    (hi : s.check i = some ⟨key, .incremented window 1⟩) : window = i := by
  have hreached : s.reached i = some ⟨window, 1⟩ := reached_some hi
  exact h.injective window i _ (h.creator i _ hreached) hreached

-- An EXPIRE finds the counter that its call has created.
theorem CountInv.of_expiring (h : CountInv s) (hi : s.check i = some c)
    (hstage : c.stage = .expiring) : ∃ e, s.redis c.fullKey = some e ∧ e.value.window = i ∧
      Redis.lookup s.clock c.fullKey s.redis = some e := by
  have hone : c.reached i = some ⟨i, 1⟩ := by simp [Check.reached, hstage]
  have hfirst : firstPending c = true := by simp [firstPending, hstage]
  obtain ⟨e, he, hwindow, hlasts⟩ := h.pending i c hi hone hfirst
  exact ⟨e, he, hwindow, Redis.lookup_of_lasting he hlasts⟩

theorem expire_redis_ne (s : Limiter) (i : CheckId) (c : Check) {k : String} (hk : k ≠ c.fullKey) :
    (s.expire windowSeconds i c).redis k = s.redis k := by
  simp [expire, Redis.expire, hk]

theorem expire_redis_self {e : Redis.Entry Counter ℚ}
    (he : Redis.lookup s.clock c.fullKey s.redis = some e) :
    (s.expire windowSeconds i c).redis c.fullKey =
      some { e with expiresAt := some (s.clock + windowSeconds) } := by
  simp [expire, Redis.expire, he]

theorem CountInv.expire (h : CountInv s) (hi : s.check i = some c) (hstage : c.stage = .expiring) :
    CountInv (s.expire windowSeconds i c) := by
  obtain ⟨e₀, he₀, hwindow, hlook⟩ := h.of_expiring hi hstage
  have hset : CountInv (s.set i { c with stage := .expired }) :=
    h.set hi rfl (by simp [Check.reached, hstage]) fun hfirst => by simp [firstPending] at hfirst
  -- the rows differ in the expiry of one
  have hredis : ∀ k e, (s.expire windowSeconds i c).redis k = some e →
      ∃ e', s.redis k = some e' ∧ e'.value = e.value := by
    intro k e he
    by_cases hk : k = c.fullKey
    · subst hk
      rw [expire_redis_self hlook, Option.some.injEq] at he
      exact ⟨e₀, he₀, he ▸ rfl⟩
    · exact ⟨e, (expire_redis_ne s i c hk).symm.trans he, rfl⟩
  refine ⟨hset.nodup, hset.listed, hset.pos, hset.creator, hset.injective, ?_, ?_, ?_⟩
  · intro k e j n he hj
    obtain ⟨e', he', hvalue⟩ := hredis k e he
    exact hvalue ▸ hset.bound k e' j n he' (hvalue ▸ hj)
  · intro k e he
    obtain ⟨e', he', hvalue⟩ := hredis k e he
    exact hvalue ▸ hset.key k e' he'
  · intro j d hd hone hfirst
    obtain ⟨e, he, hw, hlasts⟩ := hset.pending j d hd hone hfirst
    by_cases hk : d.fullKey = c.fullKey
    · rw [hk] at he
      obtain rfl := Option.some.inj (he₀.symm.trans he)
      have hji : j = i := hw.symm.trans hwindow
      subst hji
      obtain rfl := Option.some.inj (set_check_self.symm.trans hd)
      simp [firstPending] at hfirst
    · exact ⟨e, (expire_redis_ne s i c hk).trans he, hw, hlasts⟩

theorem CountInv.move (h : CountInv s) (hmove : Move limit windowSeconds s ev s') :
    CountInv s' := by
  cases hmove with
  | tick now hnow =>
      exact h.of_same rfl (fun _ => rfl) h.nodup h.listed (fun j c hc => ⟨c, hc, rfl⟩)
        fun j c hc hfirst => ⟨c, hc, rfl, hfirst⟩
  | call i key hi => exact h.call hi
  | incr i key hi => exact h.incr hi rfl
  | first i key window hi =>
      have hwindow := h.of_first hi
      exact h.set hi rfl (by simp [Check.reached, hwindow]) fun _ => by simp [firstPending]
  | expire i key hi => exact h.expire hi rfl
  | finish ev i c result hi hev hresult =>
      exact h.set hi rfl rfl fun hfirst => by simp [firstPending] at hfirst

theorem countInv_of_run {ok : Limiter → LimiterEvent → Limiter → Prop} {now : ℚ}
    (h : Reaches (step limit windowSeconds) ok (initial now) s) : CountInv s :=
  h.invariant (countInv_initial now) fun _ _ _ _ hinv hstep _ => hinv.move (move_of_step hstep)

-- What the condition is for: calls that have returned True have counted within the limit.
structure LimitInv (limit : Nat) (s : Limiter) : Prop where
  within : ∀ i c counter, s.check i = some c → c.result = some true → c.reached i = some counter →
    counter.count ≤ limit

theorem limitInv_of_run {ok : Limiter → LimiterEvent → Limiter → Prop} {now : ℚ}
    (hok : ∀ s ev s', ok s ev s' → keepsLimit limit s ev = true)
    (h : Reaches (step limit windowSeconds) ok (initial now) s) : LimitInv limit s := by
  refine h.invariant ⟨fun i c counter hc => by cases hc⟩ fun s ev s' _ hinv hstep hk => ?_
  have hkeeps := hok s ev s' hk
  have hset : ∀ i c, (∀ counter, c.result = some true → c.reached i = some counter →
      counter.count ≤ limit) → LimitInv limit (s.set i c) := by
    intro i c hc
    refine ⟨fun j d counter hd hresult hreached => ?_⟩
    by_cases hji : j = i
    · subst hji
      obtain rfl := Option.some.inj (set_check_self.symm.trans hd)
      exact hc counter hresult hreached
    · exact hinv.within j d counter (set_check_ne hji ▸ hd) hresult hreached
  cases move_of_step hstep with
  | tick now hnow => exact ⟨hinv.within⟩
  | call i key hi => exact ⟨(hset i _ fun counter h => by simp [Check.result] at h).within⟩
  | incr i key hi => exact ⟨(hset i _ fun counter h => by simp [Check.result] at h).within⟩
  | first i key window hi => exact hset i _ fun counter h => by simp [Check.result] at h
  | expire i key hi => exact ⟨(hset i _ fun counter h => by simp [Check.result] at h).within⟩
  | finish _ i c result hi hev hresult =>
      refine hset i _ fun counter htrue hreached => ?_
      have hcounter : c.reached i = some counter := hreached
      rcases hresult htrue with rfl | ⟨counter', hreached', hle⟩
      · simpa [keepsLimit, reached_some hi, hcounter] using hkeeps
      · obtain rfl := Option.some.inj (hcounter.symm.trans hreached')
        exact hle

-- The calls that return True in one window have different counts, all within the limit.
theorem admitted_le (h : CountInv s) (hlimit : LimitInv limit s) (window : CheckId) :
    (s.checks.filter (s.admittedIn window)).length ≤ limit := by
  have hcount : ∀ i, s.admittedIn window i = true →
      ∃ n, s.reached i = some ⟨window, n⟩ ∧ 1 ≤ n ∧ n ≤ limit := by
    intro i hi
    rw [admittedIn, Bool.and_eq_true] at hi
    obtain ⟨⟨w, n⟩, hreached, hw⟩ := (Option.any_eq_true _ _).mp hi.1
    obtain ⟨c, hc, hresult⟩ := (Option.any_eq_true _ _).mp hi.2
    rw [decide_eq_true_eq] at hw hresult
    subst hw
    refine ⟨n, hreached, h.pos i _ hreached, ?_⟩
    exact hlimit.within i c _ hc hresult ((reached_some hc).symm.trans hreached)
  have hnodup : (s.checks.filter (s.admittedIn window)).Nodup := h.nodup.filter _
  rw [← List.toFinset_card_of_nodup hnodup]
  calc (s.checks.filter (s.admittedIn window)).toFinset.card
      ≤ (Finset.Icc 1 limit).card := by
        refine Finset.card_le_card_of_injOn (fun i => ((s.reached i).map Counter.count).getD 0) ?_ ?_
        · intro i hi
          obtain ⟨n, hreached, hn⟩ := hcount i (List.mem_filter.mp (List.mem_toFinset.mp hi)).2
          simpa [hreached] using hn
        · intro i hi j hj heq
          obtain ⟨n, hni, -⟩ := hcount i (List.mem_filter.mp (List.mem_toFinset.mp hi)).2
          obtain ⟨m, hmj, -⟩ := hcount j (List.mem_filter.mp (List.mem_toFinset.mp hj)).2
          have hnm : n = m := by simpa [hni, hmj] using heq
          subst hnm
          exact h.injective i j _ hni hmj
    _ = limit := by simp

theorem CountInv.reached_window (h : CountInv s) {k : String} {e : Redis.Entry Counter ℚ}
    (he : s.redis k = some e) : s.reached e.value.window = some ⟨e.value.window, 1⟩ := by
  obtain ⟨c, hc, -, hone⟩ := h.key k e he
  exact (reached_some hc).trans hone

-- A counter without an expiry is one whose call is about to set it.
def Held (s : Limiter) : Prop :=
  ∀ k e, s.redis k = some e → e.expiresAt = none →
    ∃ c, s.check e.value.window = some c ∧ firstPending c = true

theorem Held.expires (h : s.Held) : s.Expires := by
  intro k e he hend hlasts
  obtain ⟨c, hc, hfirst⟩ := h k e he hlasts
  have hended : c.ended = true := by simpa [hasEnded, hc] using hend
  cases hstage : c.stage <;> simp [Check.ended, firstPending, hstage] at hended hfirst

-- A call moves on that is not in charge of a counter, or stays so.
theorem Held.set (h : s.Held) {c' : Check} (hi : s.check i = some c)
    (hfirst : firstPending c = true → firstPending c' = true) : (s.set i c').Held := by
  intro k e he hlasts
  obtain ⟨d, hd, hpending⟩ := h k e he hlasts
  by_cases hw : e.value.window = i
  · rw [hw] at hd ⊢
    obtain rfl := Option.some.inj (hi.symm.trans hd)
    exact ⟨c', set_check_self, hfirst hpending⟩
  · exact ⟨d, (set_check_ne hw).trans hd, hpending⟩

theorem Held.incr (h : CountInv s) (hheld : s.Held) (hi : s.check i = some c)
    (hstage : c.stage = .called) : (s.incr i c).Held := by
  intro k e he hlasts
  have hfirst : firstPending c = false := by simp [firstPending, hstage]
  have hother : ∀ w d, s.check w = some d → firstPending d = true →
      ∃ d', (s.incr i c).check w = some d' ∧ firstPending d' = true := by
    intro w d hd hpending
    have hw : w ≠ i := by
      intro hw
      obtain rfl := Option.some.inj (hi.symm.trans (hw ▸ hd))
      rw [hfirst] at hpending
      cases hpending
    exact ⟨d, (set_check_ne hw).trans hd, hpending⟩
  by_cases hk : k = c.fullKey
  · subst hk
    rw [incr_redis_self, Option.some.injEq] at he
    subst he
    rcases counted_cases h hi hstage with
      ⟨-, hcount⟩ | ⟨e₀, he₀, hlook, -, hcount⟩
    · refine ⟨_, by rw [hcount]; exact set_check_self, ?_⟩
      simp [firstPending, hcount]
    · rw [hlook, Option.bind_some] at hlasts
      obtain ⟨d, hd, hpending⟩ := hheld _ e₀ he₀ hlasts
      rw [hcount]
      exact hother _ d hd hpending
  · rw [incr_redis_ne s i c hk] at he
    obtain ⟨d, hd, hpending⟩ := hheld k e he hlasts
    exact hother _ d hd hpending

theorem Held.expire (h : CountInv s) (hheld : s.Held) (hi : s.check i = some c)
    (hstage : c.stage = .expiring) : (s.expire windowSeconds i c).Held := by
  obtain ⟨e₀, -, -, hlook⟩ := h.of_expiring hi hstage
  intro k e he hlasts
  by_cases hk : k = c.fullKey
  · subst hk
    rw [expire_redis_self hlook, Option.some.injEq] at he
    subst he
    cases hlasts
  · rw [expire_redis_ne s i c hk] at he
    obtain ⟨d, hd, hpending⟩ := hheld k e he hlasts
    obtain ⟨d', hd', hkey, -⟩ := h.key k e he
    have hw : e.value.window ≠ i := by
      intro hw
      obtain rfl := Option.some.inj (hi.symm.trans (hw ▸ hd'))
      exact hk hkey.symm
    exact ⟨d, (set_check_ne hw).trans hd, hpending⟩

theorem Held.move (h : CountInv s) (hheld : s.Held) (hmove : Move limit windowSeconds s ev s')
    (hkeeps : keepsExpiry s ev = true) : s'.Held := by
  cases hmove with
  | tick now hnow => exact hheld
  | call i key hi =>
      intro k e he hlasts
      obtain ⟨d, hd, hpending⟩ := hheld k e he hlasts
      have hw : e.value.window ≠ i := by
        intro hw
        rw [hw, hi] at hd
        cases hd
      exact ⟨d, (set_check_ne hw).trans hd, hpending⟩
  | incr i key hi => exact hheld.incr h hi rfl
  | first i key window hi => exact hheld.set hi fun _ => rfl
  | expire i key hi => exact hheld.expire h hi rfl
  | finish ev i c result hi hev hresult =>
      refine hheld.set hi fun hfirst => ?_
      rcases hev with ⟨-, hnot⟩ | rfl | rfl
      · rw [hfirst] at hnot
        cases hnot
      · simp [keepsExpiry, hi, hfirst] at hkeeps
      · simp [keepsExpiry, hi, hfirst] at hkeeps

theorem held_of_run {ok : Limiter → LimiterEvent → Limiter → Prop} {now : ℚ}
    (hok : ∀ s ev s', ok s ev s' → keepsExpiry s ev = true)
    (h : Reaches (step limit windowSeconds) ok (initial now) s) : s.Held := by
  refine h.invariant (fun k e he => by cases he) fun s ev s' hs hheld hstep hk => ?_
  exact hheld.move (countInv_of_run hs) (move_of_step hstep) (hok s ev s' hk)

-- A step that the condition forbids leaves a counter behind.
theorem keepsExpiry_of_expires (h : CountInv s) (hmove : Move limit windowSeconds s ev s')
    (hexpires : s'.Expires) : keepsExpiry s ev = true := by
  cases hmove with
  | finish ev i c result hi hev hresult =>
      by_cases hfirst : firstPending c = true
      · exfalso
        have hone : c.reached i = some ⟨i, 1⟩ := by
          obtain ⟨key, stage⟩ := c
          cases stage with
          | incremented window count =>
              simp only [firstPending, decide_eq_true_eq] at hfirst
              subst hfirst
              obtain rfl := h.of_first hi
              rfl
          | expiring => rfl
          | _ => simp [firstPending] at hfirst
        obtain ⟨e, he, hwindow, hlasts⟩ := h.pending i c hi hone hfirst
        refine hexpires c.fullKey e he ?_ hlasts
        rw [hwindow, hasEnded]
        simp [Limiter.finish, Check.ended]
      · rw [Bool.not_eq_true] at hfirst
        rcases hev with ⟨rfl, -⟩ | rfl | rfl
        · rfl
        · simp [keepsExpiry, hi, hfirst]
        · simp [keepsExpiry, hi, hfirst]
  | _ => rfl

theorem incr_expiresAt {k : String} {e : Redis.Entry Counter ℚ} {x : ℚ}
    (he : (s.incr i c).redis k = some e) (hx : e.expiresAt = some x) :
    ∃ e', s.redis k = some e' ∧ e'.expiresAt = some x ∧ e'.value.window = e.value.window := by
  by_cases hk : k = c.fullKey
  · subst hk
    rw [incr_redis_self, Option.some.injEq] at he
    subst he
    obtain ⟨e', hlook, hx'⟩ := Option.bind_eq_some_iff.mp hx
    refine ⟨e', (Redis.lookup_eq_some.mp hlook).1, hx', ?_⟩
    simp [counted, Redis.get, hlook]
  · exact ⟨e, (incr_redis_ne s i c hk).symm.trans he, hx, rfl⟩

theorem soon_of_run {ok : Limiter → LimiterEvent → Limiter → Prop} {now : ℚ}
    (h : Reaches (step limit windowSeconds) ok (initial now) s) : s.Soon windowSeconds := by
  refine h.invariant (fun k e x he => by cases he) fun s ev s' hs hsoon hstep _ k e x he hx => ?_
  cases move_of_step hstep with
  | tick now hnow =>
      have hle := hsoon k e x he hx
      show x ≤ now + windowSeconds
      linarith
  | call i key hi => exact hsoon k e x he hx
  | incr i key hi =>
      obtain ⟨e', he', hx', -⟩ := incr_expiresAt he hx
      exact hsoon k e' x he' hx'
  | first i key window hi => exact hsoon k e x he hx
  | expire i key hi =>
      obtain ⟨e₀, -, -, hlook⟩ := (countInv_of_run hs).of_expiring hi rfl
      by_cases hk : k = Check.fullKey ⟨key, .expiring⟩
      · subst hk
        rw [expire_redis_self hlook, Option.some.injEq] at he
        subst he
        exact (Option.some.inj hx).symm.le
      · rw [expire_redis_ne s i _ hk] at he
        exact hsoon k e x he hx
  | finish ev i c result hi hev hresult => exact hsoon k e x he hx

-- What Redis has counted a call as stays.
theorem reached_of_move (h : CountInv s) (hmove : Move limit windowSeconds s ev s')
    {counter : Counter} (hj : s.reached j = some counter) : s'.reached j = some counter := by
  cases hmove with
  | tick now hnow => exact hj
  | call i key hi =>
      have hji : j ≠ i := by
        intro hji
        rw [hji, reached, hi] at hj
        cases hj
      rw [← hj]
      exact congrArg (·.bind (Check.reached j)) (set_check_ne hji)
  | incr i key hi =>
      have hji : j ≠ i := by
        intro hji
        rw [hji, reached_some hi] at hj
        cases hj
      rw [incr_reached, if_neg hji, hj]
  | first i key window hi =>
      have hw := h.of_first hi
      subst hw
      exact (@reached_set s window _ ⟨key, .expiring⟩ hi rfl j).trans hj
  | expire i key hi =>
      exact (@reached_set s i _ ⟨key, .expired⟩ hi rfl j).trans hj
  | finish ev i c result hi hev hresult =>
      exact (@reached_set s i c { c with stage := .ended (c.reached i) result } hi rfl j).trans hj

-- The expiry of a window stays what it is.
theorem expiresAt_of_run {ok : Limiter → LimiterEvent → Limiter → Prop} {now x : ℚ} {k : String}
    {e : Redis.Entry Counter ℚ} (hs : Reaches (step limit windowSeconds) ok (initial now) s)
    (h : Reaches (step limit windowSeconds) ok s s') (he : s.redis k = some e)
    (hx : e.expiresAt = some x) :
    ∀ e', s'.redis k = some e' → e'.value.window = e.value.window → e'.expiresAt = some x := by
  have hwindow := (countInv_of_run hs).reached_window he
  let P : Limiter → Prop := fun u => u.reached e.value.window = some ⟨e.value.window, 1⟩ ∧
    ∀ e', u.redis k = some e' → e'.value.window = e.value.window → e'.expiresAt = some x
  suffices hboth : P s' from hboth.2
  refine h.invariant ⟨hwindow, fun e' he' _ => ?_⟩ fun u ev u' hu ⟨hreached, hkept⟩ hstep _ => ?_
  · obtain rfl := Option.some.inj (he.symm.trans he')
    exact hx
  have hinv := countInv_of_run (hs.trans hu)
  have hmove := move_of_step hstep
  refine ⟨reached_of_move hinv hmove hreached, fun e' he' hw => ?_⟩
  cases hmove with
  | incr i key hi =>
      have hne : e.value.window ≠ i := by
        intro hw
        rw [hw, reached_some hi] at hreached
        cases hreached
      by_cases hk : k = Check.fullKey ⟨key, .called⟩
      · subst hk
        rw [incr_redis_self, Option.some.injEq] at he'
        subst he'
        rcases counted_cases hinv hi rfl with ⟨-, hcount⟩ | ⟨e₀, he₀, hlook, -, hcount⟩
        · rw [hcount] at hw
          exact absurd hw.symm hne
        · rw [hcount] at hw
          rw [hlook]
          exact hkept e₀ he₀ hw
      · rw [incr_redis_ne u i _ hk] at he'
        exact hkept e' he' hw
  | expire i key hi =>
      obtain ⟨e₀, he₀, hwindow, hlook⟩ := hinv.of_expiring hi rfl
      by_cases hk : k = Check.fullKey ⟨key, .expiring⟩
      · subst hk
        rw [expire_redis_self hlook, Option.some.injEq] at he'
        subst he'
        -- the call would have found the counter without an expiry
        obtain ⟨e₁, he₁, -, hlasts⟩ := hinv.pending i _ hi rfl rfl
        obtain rfl := Option.some.inj (he₀.symm.trans he₁)
        rw [hkept e₀ he₀ hw] at hlasts
        cases hlasts
      · rw [expire_redis_ne u i _ hk] at he'
        exact hkept e' he' hw
  | _ => exact hkept e' he' hw

end Limiter

open Limiter

-- A run in which no call that has counted beyond the limit ends by an exception, and no call that
-- has created a counter ends before its EXPIRE, keeps to the limit, and a window is over within
-- `windowSeconds` of the end of the call that has opened it. Whether counters are left without
-- an expiry depends on the second condition alone.
theorem rate_limited (limit : Nat) (windowSeconds now : ℚ) :
    (∀ s, Reaches (step limit windowSeconds)
        (fun s ev _ => keepsLimit limit s ev = true ∧ keepsExpiry s ev = true) (initial now) s →
      Limited limit windowSeconds s ∧ ∀ s', Reaches (step limit windowSeconds)
          (fun s ev _ => keepsLimit limit s ev = true ∧ keepsExpiry s ev = true) s s' →
        s.clock + windowSeconds ≤ s'.clock →
          ∀ k e e', s.redis k = some e → s.hasEnded e.value.window = true →
            Redis.lookup s'.clock k s'.redis = some e' → e'.value.window ≠ e.value.window) ∧
    ∀ s, Reaches (step limit windowSeconds) (fun _ _ s' => s'.Expires) (initial now) s ↔
      Reaches (step limit windowSeconds) (fun s ev _ => keepsExpiry s ev = true) (initial now) s := by
  refine ⟨fun s hs => ⟨⟨fun window => ?_, ?_, soon_of_run hs⟩, fun s' hs' hclock => ?_⟩, fun s => ?_⟩
  · exact admitted_le (countInv_of_run hs) (limitInv_of_run (fun _ _ _ h => h.1) hs) window
  · exact (held_of_run (fun _ _ _ h => h.2) hs).expires
  · intro k e e' he hended he' hw
    have hexpires := (held_of_run (fun _ _ _ h => h.2) hs).expires k e he hended
    obtain ⟨x, hx⟩ := Option.ne_none_iff_exists'.mp hexpires
    obtain ⟨hredis, -⟩ := Redis.lookup_eq_some.mp he'
    have hx' := expiresAt_of_run hs hs' he hx e' hredis hw
    have hover : x ≤ s'.clock := (soon_of_run hs k e x he hx).trans hclock
    rw [Redis.lookup_expired hredis hx' hover] at he'
    cases he'
  · constructor
    · exact fun h => h.imp fun _ _ _ hs hstep hexpires =>
        keepsExpiry_of_expires (countInv_of_run hs) (move_of_step hstep) hexpires
    · refine fun h => h.imp fun _ _ _ hs hstep hkeeps => Held.expires ?_
      exact (held_of_run (fun _ _ _ h => h) hs).move (countInv_of_run hs) (move_of_step hstep) hkeeps

section Example

def loginKey : String := "login:10.0.0.7"

def loginCheck (i : CheckId) : List LimiterEvent := [.call i loginKey, .incr i, .reply i]

-- Three logins in a minute where two are allowed.
def threeLogins : List LimiterEvent :=
  loginCheck 1 ++ [.expire 1, .reply 1] ++ loginCheck 2 ++ [.tick 30] ++ loginCheck 3

def keepsBoth (limit : Nat) (s : Limiter) (ev : LimiterEvent) (_ : Limiter) : Bool :=
  keepsLimit limit s ev && keepsExpiry s ev

def limiterAfter (limit : Nat) (windowSeconds : ℚ) (ok : Limiter → LimiterEvent → Limiter → Bool)
    (events : List LimiterEvent) : Limiter :=
  (Txn.runAll (step limit windowSeconds) ok (initial 0) events).getD (initial 0)

def resultOf (s : Limiter) (i : CheckId) : Option Bool := (s.check i).bind Check.result

-- The process of the first login dies after its INCR: ever after, logins are refused.
theorem crash_locks_out :
    ¬ ∀ s, Reaches (step 2 60) (fun _ _ _ => True) (initial 0) s → Limited 2 60 s := by
  intro h
  let events : List LimiterEvent :=
    [.call 1 loginKey, .incr 1, .crash 1, .tick 86400] ++ loginCheck 2 ++ loginCheck 3
  let s := limiterAfter 2 60 (fun _ _ _ => true) events
  have hrun : Reaches (step 2 60) (fun _ _ _ => True) (initial 0) s :=
    (Reaches.getD_runAll (fun _ _ _ => true) events).mono fun _ _ _ _ => trivial
  have hrefused : resultOf s 3 = some false := by decide +kernel
  have hended : s.hasEnded 1 = true := by decide +kernel
  have hcounter : s.redis ("chronos:ratelimit:" ++ loginKey) = some ⟨⟨1, 3⟩, none⟩ := by
    decide +kernel
  exact (h s hrun).expires _ _ hcounter hended rfl

theorem rate_limited_login :
    let s := limiterAfter 2 60 (keepsBoth 2) threeLogins
    Limited 2 60 s ∧ (s.checks.map (resultOf s)) = [some false, some true, some true] ∧
      Reaches (step 2 60) (fun _ _ s' => s'.Expires) (initial 0) s := by
  intro s
  have hrun : Reaches (step 2 60) (fun s ev _ => keepsLimit 2 s ev = true ∧
      keepsExpiry s ev = true) (initial 0) s :=
    (Reaches.getD_runAll (keepsBoth 2) threeLogins).mono fun _ _ _ h => by
      simpa [keepsBoth] using h
  refine ⟨((rate_limited 2 60 0).1 s hrun).1, by decide +kernel, ?_⟩
  exact ((rate_limited 2 60 0).2 s).mpr (hrun.mono fun _ _ _ h => h.2)

end Example

end Chronos
