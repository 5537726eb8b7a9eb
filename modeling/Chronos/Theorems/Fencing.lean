import Chronos.Refinement.Checks

namespace Chronos

open Txn (TxId Reaches)

variable {cond : Conditions} {m : Db} {s s' : State}

-- Every end of a claim stands right on the claim it ends.
def FencedLog (log : List JobEvent) : Prop :=
  ∀ newer older claim tx how, log = newer ++ .finished claim tx how :: older →
    ∃ workerId pass rest, older = .claimed claim workerId pass :: rest

theorem FencedLog.cons {log : List JobEvent} {ev : JobEvent} (h : FencedLog log)
    (hev : ∀ claim tx how, ev = .finished claim tx how →
      ∃ workerId pass rest, log = .claimed claim workerId pass :: rest) : FencedLog (ev :: log) := by
  intro newer older claim tx how hlog
  cases newer with
  | nil =>
      obtain ⟨rfl, rfl⟩ := List.cons.inj hlog
      exact hev claim tx how rfl
  | cons new newer => exact h newer older claim tx how (List.cons.inj hlog).2

end Chronos
