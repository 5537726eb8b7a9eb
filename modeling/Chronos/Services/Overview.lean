import Chronos.Events.Redis
import Chronos.Services.Stats
import Chronos.Txn.Pool

namespace Chronos

open Txn (TxId stmt)

def STATS_CACHE_KEY : String := "chronos:stats:overview"

-- What a _compute is called with, and the now() of the transaction it finds open.
structure ComputeArgs where
  dbNow : Time
  now : Time
  rank : Time × AttemptStatus → Nat

abbrev StatsCall (C : Type) := C ⊕ ComputeArgs

abbrev StatsPool (C : Type) := Txn.Pool Key Row Time (StatsCall C) (Option StatsOverview)

-- Whatever else uses the database.
structure Clients (C : Type) where
  may : StatsPool C → C → Bool
  body : TxId → C → Tx Unit

def StatsCall.body {C : Type} (clients : Clients C) (t : TxId) :
    StatsCall C → Tx (Option StatsOverview)
  | .inl c => do
      clients.body t c
      return none
  | .inr a => do
      let overview ← StatsService.compute a.dbNow a.now a.rank
      stmt .rollback
      return some overview

def Clients.system {C : Type} (clients : Clients C) :
    Txn.System Key Row Time (StatsCall C) (Option StatsOverview) where
  may s := Sum.elim (clients.may s) fun _ => true
  body := StatsCall.body clients

-- Where an overview call stands: before Redis takes its GET, before it has the answer, after a miss,
-- while transaction `t` computes, with an overview to be stored, before the answer to its SET, or at
-- its end. `answeredAt` is ghost state.
inductive OverviewStage
  | called
  | looked (cached : Option String)
  | missed
  | computing (t : TxId)
  | computed (overview : StatsOverview)
  | stored (overview : StatsOverview)
  | returned (overview : StatsOverview) (answeredAt : Time)
  | raised

-- get_current_user has read the user in the session that the call goes on with: `begunAt` is the
-- now() of its transaction, whatever Redis takes until the next query.
structure OverviewCall where
  stage : OverviewStage
  begunAt : Time

-- The JSON of an overview: model_dump_json and model_validate_json.
structure OverviewJson where
  dump : StatsOverview → String
  load : String → Option StatsOverview

structure Dashboard (C : Type) where
  pool : StatsPool C
  redis : Redis.Keyspace String String Time
  call : Nat → Option OverviewCall

-- `get` says whether the reply of Redis arrives, `set` whether the value is stored; `collect` is the
-- end of a computation, whether it has come to a result or been cut off.
inductive DashboardEvent (C : Type)
  | db (ev : Txn.Event Time (StatsCall C))
  | evict (key : String)
  | call (i : Nat)
  | get (i : Nat) (arrives : Bool)
  | reply (i : Nat)
  | compute (i : Nat) (t : TxId) (now : Time) (rank : Time × AttemptStatus → Nat)
  | collect (i : Nat)
  | set (i : Nat) (stored : Bool)
  | finish (i : Nat)

namespace Dashboard

variable {C : Type}

def init (m : Db) : Dashboard C := ⟨.init m, fun _ => none, fun _ => none⟩

def clock (s : Dashboard C) : Time := s.pool.mem.clock

def put (s : Dashboard C) (i : Nat) (c : OverviewCall) : Dashboard C :=
  { s with call := Function.update s.call i (some c) }

-- What an overview call makes of the answer of the cache.
def served (json : OverviewJson) (now : Time) (cached : Option String) : OverviewStage :=
  match cached with
  | none => .missed
  | some text =>
      if text = "" then .missed
      else
        match json.load text with
        | some overview => .returned overview now
        | none => .raised

def ending (thread : Option (Txn.Thread Key Row Time (StatsCall C) (Option StatsOverview))) :
    Option OverviewStage :=
  match thread with
  | some ⟨_, some (.pure (some overview))⟩ => some (.computed overview)
  | some ⟨_, none⟩ => some .raised
  | _ => none

-- overview by steps, of any number of calls.
def step (clients : Clients C) (json : OverviewJson) (ttl : Time) (s : Dashboard C) :
    DashboardEvent C → Option (Dashboard C)
  | .db ev => (clients.system.step s.pool ev).map fun pool => { s with pool := pool }
  | .evict key => some { s with redis := Redis.del key s.redis }
  | .call i =>
      match s.call i with
      | none => some (s.put i ⟨.called, s.clock⟩)
      | some _ => none
  | .get i arrives =>
      match s.call i with
      | some ⟨.called, begunAt⟩ =>
          let cached := if arrives then Redis.get s.clock STATS_CACHE_KEY s.redis else none
          some (s.put i ⟨.looked cached, begunAt⟩)
      | _ => none
  | .reply i =>
      match s.call i with
      | some ⟨.looked cached, begunAt⟩ => some (s.put i ⟨served json s.clock cached, begunAt⟩)
      | _ => none
  | .compute i t now rank =>
      match s.call i with
      | some ⟨.missed, begunAt⟩ =>
          (clients.system.step s.pool (.start t (.inr ⟨begunAt, now, rank⟩))).map fun pool =>
            { s with pool := pool }.put i ⟨.computing t, begunAt⟩
      | _ => none
  | .collect i =>
      match s.call i with
      | some ⟨.computing t, begunAt⟩ =>
          (ending (s.pool.thread t)).map fun stage => s.put i ⟨stage, begunAt⟩
      | _ => none
  | .set i stored =>
      match s.call i with
      | some ⟨.computed overview, begunAt⟩ =>
          let s' := s.put i ⟨.stored overview, begunAt⟩
          if stored then
            some { s' with
              redis := Redis.set STATS_CACHE_KEY (json.dump overview) (s.clock + ttl) s.redis }
          else some s'
      | _ => none
  | .finish i =>
      match s.call i with
      | some ⟨.stored overview, begunAt⟩ =>
          some (s.put i ⟨.returned overview s.clock, begunAt⟩)
      | _ => none

end Dashboard

end Chronos
