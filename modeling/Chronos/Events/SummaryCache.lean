import Chronos.Events.Redis
import Chronos.Txn.Pool
import Mathlib.Algebra.Order.Ring.Rat

namespace Chronos

-- One generate_summary call.
abbrev SummaryId := Nat

structure SummaryArgs where
  errorText : String
  taskName : String
  attemptCount : Int
deriving DecidableEq

-- analyze_failure as a function of its arguments.
abbrev Analysis := String → String → Int → Option String

def Analysis.of (analyze : Analysis) (a : SummaryArgs) : Option String :=
  analyze a.taskName a.errorText a.attemptCount

-- Where a call stands: before its GET, after a miss, with a summary to be stored, or returned.
-- `cached` is ghost state: what it returns is the answer of the cache.
inductive SummaryStage
  | called
  | missed
  | analyzed (summary : String)
  | returned (cached : Bool) (result : Option String)
deriving DecidableEq

structure SummaryCall where
  args : SummaryArgs
  stage : SummaryStage
deriving DecidableEq

def AI_CACHE_PREFIX : String := "chronos:ai:summary:"

-- 24 hours
def AI_CACHE_TTL : ℚ := 60 * 60 * 24

structure Summaries where
  redis : Redis.Keyspace String String ℚ
  clock : ℚ
  call : SummaryId → Option SummaryCall

-- A command that fails may have been executed or not: `get` says whether its reply arrives, `set`
-- whether the value is stored. `evict` is a key lost by Redis before it expires.
inductive SummaryEvent
  | tick (now : ℚ)
  | evict (key : String)
  | call (i : SummaryId) (args : SummaryArgs)
  | get (i : SummaryId) (arrives : Bool)
  | analyze (i : SummaryId) (fails : Bool)
  | set (i : SummaryId) (stored : Bool)

namespace Summaries

def initial (now : ℚ) : Summaries := ⟨fun _ => none, now, fun _ => none⟩

def put (s : Summaries) (i : SummaryId) (c : SummaryCall) : Summaries :=
  { s with call := Function.update s.call i (some c) }

-- `digest` is the first 16 digits of the SHA-256 of a text.
def cacheKey (digest : String → String) (errorText : String) : String :=
  AI_CACHE_PREFIX ++ digest errorText

-- generate_summary by steps. `enabled` is whether there is an API key; `analyze i` is what
-- analyze_failure does in call `i`.
def step (enabled : Bool) (digest : String → String) (analyze : SummaryId → Analysis)
    (s : Summaries) : SummaryEvent → Option Summaries
  | .tick now => if s.clock ≤ now then some { s with clock := now } else none
  | .evict key => some { s with redis := Redis.del key s.redis }
  | .call i args =>
      match s.call i with
      | none => some (s.put i ⟨args, if enabled then .called else .returned false none⟩)
      | some _ => none
  | .get i arrives =>
      match s.call i with
      | some ⟨args, .called⟩ =>
          let cached := if arrives then Redis.get s.clock (cacheKey digest args.errorText) s.redis
            else none
          match cached with
          | some text =>
              if text ≠ "" then some (s.put i ⟨args, .returned true (some text)⟩)
              else some (s.put i ⟨args, .missed⟩)
          | none => some (s.put i ⟨args, .missed⟩)
      | _ => none
  | .analyze i fails =>
      match s.call i with
      | some ⟨args, .missed⟩ =>
          let summary := if fails then none else ((analyze i).of args).filter (· ≠ "")
          match summary with
          | some text => some (s.put i ⟨args, .analyzed text⟩)
          | none => some (s.put i ⟨args, .returned false none⟩)
      | _ => none
  | .set i stored =>
      match s.call i with
      | some ⟨args, .analyzed text⟩ =>
          let s' := s.put i ⟨args, .returned false (some text)⟩
          let key := cacheKey digest args.errorText
          if stored then
            some { s' with redis := Redis.set key text (s.clock + AI_CACHE_TTL) s.redis }
          else some s'
      | _ => none

end Summaries

end Chronos
