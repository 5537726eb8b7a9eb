import Chronos.Data.Dialogue

open Dialogue (Talk)

-- Where a graph goes after a node.
inductive StateGraph.Edge (N S Q A E : Type)
  | to (n : N)
  | choose (path : S → Talk Q A E N)
  | finish

-- A graph as it is put together. A node reads the state and returns an update of it.
structure StateGraph (N S Q A E : Type) where
  entry : N
  node : N → S → Talk Q A E S
  update : S → S → S
  edge : N → StateGraph.Edge N S Q A E

namespace StateGraph

variable {N S Q A E : Type}

-- The node that an edge leads to in a state. `none` is the end.
def Edge.follow (state : S) : Edge N S Q A E → Talk Q A E (Option N)
  | .to n => return some n
  | .choose path => do
      let n ← path state
      return some n
  | .finish => return none

variable (g : StateGraph N S Q A E)

def visit (n : N) (state : S) : Talk Q A E (S × Option N) := do
  let returned ← g.node n state
  let state := g.update state returned
  let next ← (g.edge n).follow state
  return (state, next)

-- The way through a graph from a node, by the number of nodes that are visited: it ends where the
-- graph does, or with what is raised in a node or on an edge.
inductive Walk : Nat → N → S → List (Q × A) → Except E S → List (Q × A) → Prop
  | raised {n : N} {state : S} {said said' : List (Q × A)} {e : E}
      (h : g.visit n state said = (.error e, said')) : Walk 1 n state said (.error e) said'
  | ended {n : N} {state state' : S} {said said' : List (Q × A)}
      (h : g.visit n state said = (.ok (state', none), said')) :
      Walk 1 n state said (.ok state') said'
  | goes {k : Nat} {n n' : N} {state state' : S} {said said' said'' : List (Q × A)}
      {r : Except E S} (h : g.visit n state said = (.ok (state', some n'), said'))
      (hrest : Walk k n' state' said' r said'') : Walk (k + 1) n state said r said''

-- What is documented of the library that runs graphs: it goes the way through them, unless that
-- takes more than `limit` steps, of which the start is one.
def Follows (limit : Nat) (invoke : StateGraph N S Q A E → S → Talk Q A E S) : Prop :=
  ∀ g k state said r said', Walk g k g.entry state said r said' → k < limit →
    invoke g state said = (r, said')

variable {g} {Inv : N → S → List (Q × A) → Prop} {post : S → List (Q × A) → Prop}
  {fail : E → List (Q × A) → Prop} {rank : N → Nat}

-- What a visit leaves to the next one.
def Leaves (Inv : N → S → List (Q × A) → Prop) (post : S → List (Q × A) → Prop) (rank : N → Nat)
    (n : N) (left : S × Option N) (said : List (Q × A)) : Prop :=
  (left.2 = none → post left.1 said) ∧
    ∀ n', left.2 = some n' → rank n' < rank n ∧ Inv n' left.1 said

-- A rank that every visit lowers bounds the walk, and an invariant of the visits carries it to
-- its end.
theorem exists_walk (hvisit : ∀ n state said, Inv n state said →
      (g.visit n state).wp (Leaves Inv post rank n) fail said) (bound : Nat) {n : N} {state : S}
    {said : List (Q × A)} (hbound : rank n < bound) (h : Inv n state said) :
    ∃ k r said', k ≤ bound ∧ Walk g k n state said r said' ∧
      match r with
      | .ok state' => post state' said'
      | .error e => fail e said' := by
  induction bound generalizing n state said with
  | zero => omega
  | succ bound ih =>
      have hleft := hvisit n state said h
      rw [Talk.wp] at hleft
      split at hleft
      · rename_i left said' hrun
        obtain ⟨state', next⟩ := left
        obtain ⟨hend, hnext⟩ := hleft
        cases next with
        | none => exact ⟨1, .ok state', said', by omega, .ended hrun, hend rfl⟩
        | some n' =>
            obtain ⟨hrank, hinv⟩ := hnext n' rfl
            obtain ⟨k, r, said'', hk, hwalk, hr⟩ := ih (by omega) hinv
            exact ⟨k + 1, r, said'', by omega, .goes hrun hwalk, hr⟩
      · rename_i e said' hrun
        exact ⟨1, .error e, said', by omega, .raised hrun, hleft⟩

-- The rule for running a graph.
theorem wp_invoke {limit : Nat} {invoke : StateGraph N S Q A E → S → Talk Q A E S}
    (hfollows : Follows limit invoke) (hvisit : ∀ n state said, Inv n state said →
      (g.visit n state).wp (Leaves Inv post rank n) fail said) {state : S} {said : List (Q × A)}
    (hlimit : rank g.entry + 1 < limit) (h : Inv g.entry state said) :
    (invoke g state).wp post fail said := by
  obtain ⟨k, r, said', hk, hwalk, hr⟩ := exists_walk hvisit (rank g.entry + 1) (Nat.lt_succ_self _) h
  have hrun : invoke g state said = (r, said') := hfollows g k state said r said' hwalk (by omega)
  rw [Talk.wp, hrun]
  cases r with
  | ok state' => exact hr
  | error e => exact hr

end StateGraph
