import Chronos.Events.Redis
import Chronos.Txn.Pool
import Mathlib.Algebra.Order.Ring.Rat

namespace Chronos

-- One check_rate_limit call.
abbrev CheckId := Nat

-- The integer at a key of Redis. `window` is ghost state: the call that created the key.
structure Counter where
  window : CheckId
  count : Nat
deriving DecidableEq

-- Where a call stands: before its INCR, with the reply to it on the way, before the EXPIRE that a
-- first count asks for, with the reply to that on the way, or ended with what it has returned, if
-- it has. `reached` is what Redis has counted it as.
inductive Stage
  | called
  | incremented (window : CheckId) (count : Nat)
  | expiring
  | expired
  | ended (reached : Option Counter) (result : Option Bool)
deriving DecidableEq

structure Check where
  key : String
  stage : Stage
deriving DecidableEq

namespace Check

def fullKey (c : Check) : String := "chronos:ratelimit:" ++ c.key

-- What Redis has counted call `i` as.
def reached (i : CheckId) (c : Check) : Option Counter :=
  match c.stage with
  | .called => none
  | .incremented window count => some ⟨window, count⟩
  | .expiring => some ⟨i, 1⟩
  | .expired => some ⟨i, 1⟩
  | .ended reached _ => reached

def result (c : Check) : Option Bool :=
  match c.stage with
  | .ended _ result => result
  | _ => none

def ended (c : Check) : Bool :=
  match c.stage with
  | .ended _ _ => true
  | _ => false

end Check

structure Limiter where
  redis : Redis.Keyspace String Counter ℚ
  clock : ℚ
  checks : List CheckId
  check : CheckId → Option Check

-- `fail` is an exception out of a Redis command, `crash` the end of the process.
inductive LimiterEvent
  | tick (now : ℚ)
  | call (i : CheckId) (key : String)
  | incr (i : CheckId)
  | reply (i : CheckId)
  | expire (i : CheckId)
  | fail (i : CheckId)
  | crash (i : CheckId)

namespace Limiter

def initial (now : ℚ) : Limiter := ⟨fun _ => none, now, [], fun _ => none⟩

def set (s : Limiter) (i : CheckId) (c : Check) : Limiter :=
  { s with check := Function.update s.check i (some c) }

-- INCR of call `i`
def counted (s : Limiter) (i : CheckId) (c : Check) : Counter :=
  match Redis.get s.clock c.fullKey s.redis with
  | none => ⟨i, 1⟩
  | some counter => { counter with count := counter.count + 1 }

def incr (s : Limiter) (i : CheckId) (c : Check) : Limiter :=
  let counter := s.counted i c
  { s.set i { c with stage := .incremented counter.window counter.count } with
    redis := Redis.put s.clock c.fullKey counter s.redis }

def expire (windowSeconds : ℚ) (s : Limiter) (i : CheckId) (c : Check) : Limiter :=
  { s.set i { c with stage := .expired } with
    redis := Redis.expire s.clock c.fullKey (s.clock + windowSeconds) s.redis }

def finish (s : Limiter) (i : CheckId) (c : Check) (result : Option Bool) : Limiter :=
  s.set i { c with stage := .ended (c.reached i) result }

-- check_rate_limit by steps. An exception is answered with True wherever it comes from.
def step (limit : Nat) (windowSeconds : ℚ) (s : Limiter) : LimiterEvent → Option Limiter
  | .tick now => if s.clock ≤ now then some { s with clock := now } else none
  | .call i key =>
      match s.check i with
      | none => some { s.set i ⟨key, .called⟩ with checks := i :: s.checks }
      | some _ => none
  | .incr i =>
      match s.check i with
      | some ⟨key, .called⟩ => some (s.incr i ⟨key, .called⟩)
      | _ => none
  | .reply i =>
      match s.check i with
      | some ⟨key, .incremented window count⟩ =>
          if count = 1 then some (s.set i ⟨key, .expiring⟩)
          else some (s.finish i ⟨key, .incremented window count⟩ (some (count ≤ limit)))
      | some ⟨key, .expired⟩ => some (s.finish i ⟨key, .expired⟩ (some (1 ≤ limit)))
      | _ => none
  | .expire i =>
      match s.check i with
      | some ⟨key, .expiring⟩ => some (s.expire windowSeconds i ⟨key, .expiring⟩)
      | _ => none
  | .fail i =>
      match s.check i with
      | some c => if c.ended then none else some (s.finish i c (some true))
      | none => none
  | .crash i =>
      match s.check i with
      | some c => if c.ended then none else some (s.finish i c none)
      | none => none

end Limiter

end Chronos
