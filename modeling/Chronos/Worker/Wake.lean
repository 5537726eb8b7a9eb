import Chronos.Models.Job
import Chronos.Worker.Loop

namespace Chronos

-- The await that wait_for_wake stands at.
inductive WakeAwait
  | subscribe
  | getMessage
  | sleep
deriving DecidableEq

-- A PubSub of the client, which Redis knows of or not: then the messages it has not read yet.
inductive PubSub
  | created
  | subscribed (messages : Nat)
deriving DecidableEq

def PubSub.publish : PubSub → PubSub
  | .subscribed n => .subscribed (n + 1)
  | .created => .created

-- What a wait_for_wake that is cancelled leaves: the SUBSCRIBE may have gone out, and a message
-- may have been taken.
def PubSub.cancelled (done : Bool) : WakeAwait → PubSub → PubSub
  | .subscribe, .created => if done then .subscribed 0 else .created
  | .getMessage, .subscribed (n + 1) => if done then .subscribed n else .subscribed (n + 1)
  | _, pubsub => pubsub

-- A worker's consume loop and its EventBus. Ghost state: the jobs that have been committed to run,
-- those whose wake has reached the subscription, and what had committed when the last claim took
-- its snapshot.
structure Listener where
  loop : Consumer
  pubsub : Option PubSub
  waits : Option WakeAwait
  jobs : List JobId
  published : List JobId
  seen : List JobId

inductive ListenerEvent
  | loop (ev : ConsumerEvent)
  | committed (id : JobId)
  | publishWake (id : JobId)
  | subscribed
  | message
  | noMessage
  | failed
  | slept
  | freed (done : Bool)
  | disconnected

namespace Listener

variable (concurrency : Nat) (s : Listener)

-- wait_for_wake up to its first await
def waitForWake : Listener :=
  match s.pubsub with
  | none => { s with pubsub := some .created, waits := some .subscribe }
  | some _ => { s with waits := some .getMessage }

-- The loop goes on, into a call of wait_for_wake or not.
def enter (loop : Consumer) : Listener :=
  match loop.position with
  | .waiting _ => { s with loop := loop }.waitForWake
  | _ => { s with loop := loop, waits := none }

-- wait_for_wake returns.
def woken : Option Listener := (s.loop.step concurrency .wake).map s.enter

def init : Listener := enter ⟨Consumer.init concurrency, none, none, [], [], []⟩ (.init concurrency)

-- publish_wake comes after the commit, and reaches whoever has subscribed; where it fails, nothing
-- happens.
def publishWake (id : JobId) : Option Listener :=
  if id ∈ s.jobs then
    match s.pubsub with
    | some (.subscribed n) =>
        some { s with pubsub := some (.subscribed (n + 1)), published := id :: s.published }
    | _ => some s
  else none

def step : ListenerEvent → Option Listener
  | .loop .wake => none
  | .loop .freed => none
  | .loop .snapshot => (s.loop.step concurrency .snapshot).map { s with seen := s.jobs }.enter
  | .loop ev =>
      (s.loop.step concurrency ev).map fun loop =>
        if s.waits.isSome then { s with loop := loop } else s.enter loop
  | .committed id => some { s with jobs := id :: s.jobs }
  | .publishWake id => s.publishWake id
  | .subscribed =>
      if s.waits = some .subscribe then
        some { s with pubsub := some (.subscribed 0), waits := some .getMessage }
      else none
  | .message =>
      match s.waits, s.pubsub with
      | some .getMessage, some (.subscribed (n + 1)) =>
          { s with pubsub := some (.subscribed n) }.woken concurrency
      | _, _ => none
  -- the timeout, or the confirmation of the SUBSCRIBE, which is not reported
  | .noMessage => if s.waits = some .getMessage then s.woken concurrency else none
  | .failed =>
      if s.waits = some .subscribe ∨ s.waits = some .getMessage then
        some { s with pubsub := none, waits := some .sleep, published := [] }
      else none
  | .slept => if s.waits = some .sleep then s.woken concurrency else none
  | .freed done =>
      match s.waits with
      | some waits =>
          (s.loop.step concurrency .freed).map
            { s with pubsub := s.pubsub.map (PubSub.cancelled done waits) }.enter
      | none => none
  | .disconnected => some { s with pubsub := s.pubsub.map fun _ => .created, published := [] }

end Listener

end Chronos
