import Mathlib.Data.List.Nodup

namespace Patch

variable {R F C S : Type}

-- Records set one field at a time: the column of a field, what a column holds as a field, the
-- record with a field set unless the column refuses its value, and what no field reaches.
structure Fields (R F C S : Type) where
  column : F → C
  get : R → C → F
  stored : F → F
  assign : R → F → Option R
  refused : F → Bool
  rest : R → S

structure Lawful (fs : Fields R F C S) : Prop where
  get_self : ∀ {r r' f}, fs.assign r f = some r' → fs.get r' (fs.column f) = fs.stored f
  get_other : ∀ {r r' f c}, fs.assign r f = some r' → c ≠ fs.column f → fs.get r' c = fs.get r c
  rest_eq : ∀ {r r' f}, fs.assign r f = some r' → fs.rest r' = fs.rest r
  refuses : ∀ r f, fs.assign r f = none ↔ fs.refused f = true

-- The columns that are sent hold what was sent, and nothing else has changed.
structure Patched (fs : Fields R F C S) (r : R) (body : List F) (r' : R) : Prop where
  sent : ∀ f ∈ body, fs.get r' (fs.column f) = fs.stored f
  kept : ∀ c, c ∉ body.map fs.column → fs.get r' c = fs.get r c
  rest : fs.rest r' = fs.rest r

-- setattr over a body; a field that is refused leaves the record as it is.
def apply (assign : R → F → Option R) (r : R) (body : List F) : R :=
  body.foldl (fun r f => (assign r f).getD r) r

@[simp] theorem apply_nil (assign : R → F → Option R) (r : R) : apply assign r [] = r := rfl

-- What every field keeps, a body keeps.
theorem apply_keeps {assign : R → F → Option R} (ok : F → Prop) (P : R → Prop)
    (hkeeps : ∀ r f r', ok f → P r → assign r f = some r' → P r') (body : List F)
    (hbody : ∀ f ∈ body, ok f) (r : R) (hr : P r) : P (apply assign r body) := by
  induction body generalizing r with
  | nil => exact hr
  | cons f body ih =>
      have hnext : P ((assign r f).getD r) := by
        cases h : assign r f with
        | none => exact hr
        | some r' => exact hkeeps r f r' (hbody f List.mem_cons_self) hr h
      exact ih (fun g hg => hbody g (List.mem_cons_of_mem f hg)) _ hnext

variable {fs : Fields R F C S} {body : List F}

theorem Patched.nil (fs : Fields R F C S) (r : R) : Patched fs r [] r where
  sent f hf := by simp at hf
  kept _ _ := rfl
  rest := rfl

end Patch
