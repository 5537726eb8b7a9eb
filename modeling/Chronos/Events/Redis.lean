import Mathlib.Logic.Function.Basic
import Mathlib.Order.Lattice

namespace Redis

-- A value, and when it expires if it does.
structure Entry (V T : Type) where
  value : V
  expiresAt : Option T
deriving DecidableEq

abbrev Keyspace (K V T : Type) := K → Option (Entry V T)

variable {K V T : Type} [LinearOrder T]

def Entry.live (now : T) (e : Entry V T) : Bool := e.expiresAt.all fun x => now < x

def lookup (now : T) (k : K) (m : Keyspace K V T) : Option (Entry V T) :=
  (m k).filter (Entry.live now)

-- GET
def get (now : T) (k : K) (m : Keyspace K V T) : Option V := (lookup now k m).map Entry.value

theorem lookup_eq_some {now : T} {k : K} {m : Keyspace K V T} {e : Entry V T} :
    lookup now k m = some e ↔ m k = some e ∧ e.live now = true := by
  simp [lookup, Option.filter_eq_some_iff]

theorem live_of_lasting {now : T} {e : Entry V T} (h : e.expiresAt = none) : e.live now = true := by
  simp [Entry.live, h]

theorem lookup_of_lasting {now : T} {k : K} {m : Keyspace K V T} {e : Entry V T}
    (h : m k = some e) (hlasts : e.expiresAt = none) : lookup now k m = some e :=
  lookup_eq_some.mpr ⟨h, live_of_lasting hlasts⟩

-- Past its expiry a key is as good as deleted.
theorem lookup_expired {now x : T} {k : K} {m : Keyspace K V T} {e : Entry V T}
    (h : m k = some e) (hexpires : e.expiresAt = some x) (hx : x ≤ now) : lookup now k m = none := by
  rw [Option.eq_none_iff_forall_ne_some]
  intro e' he'
  obtain ⟨hm, hlive⟩ := lookup_eq_some.mp he'
  obtain rfl := Option.some.inj (h.symm.trans hm)
  simp only [Entry.live, hexpires, Option.all_some, decide_eq_true_eq] at hlive
  exact absurd hlive (not_lt.mpr hx)

variable [DecidableEq K]

-- SET, with EX
def set (k : K) (v : V) (expiresAt : T) (m : Keyspace K V T) : Keyspace K V T :=
  Function.update m k (some ⟨v, some expiresAt⟩)

-- A value written over the one a key has, as INCR does: the expiry stays.
def put (now : T) (k : K) (v : V) (m : Keyspace K V T) : Keyspace K V T :=
  Function.update m k (some ⟨v, (lookup now k m).bind Entry.expiresAt⟩)

-- EXPIRE
def expire (now : T) (k : K) (expiresAt : T) (m : Keyspace K V T) : Keyspace K V T :=
  Function.update m k ((lookup now k m).map fun e => { e with expiresAt := some expiresAt })

def del (k : K) (m : Keyspace K V T) : Keyspace K V T := Function.update m k none

end Redis
