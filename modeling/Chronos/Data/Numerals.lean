import Mathlib.Data.Int.Init

-- Texts with numbers in them, and the numbers read out of a text again.
namespace Numerals

def isNumeral (c : Char) : Bool := c.isDigit || c = '-'

def digits : Int → List Char
  | .ofNat n => Nat.toDigits 10 n
  | .negSucc n => '-' :: Nat.toDigits 10 (n + 1)

def value : List Char → Int
  | '-' :: cs => -(Nat.ofDigitChars 10 cs 0 : Nat)
  | cs => (Nat.ofDigitChars 10 cs 0 : Nat)

-- A number with the text around it.
structure Field where
  before : String
  number : Int
  after : String

def Field.text (f : Field) : List Char := f.before.toList ++ (digits f.number ++ f.after.toList)

-- Nothing around the number is a part of it, or of the next one.
def Field.apart (f : Field) : Bool :=
  f.before.toList.all (fun c => !isNumeral c) && f.after.toList.all (fun c => !isNumeral c) &&
    !f.after.toList.isEmpty

def numbers (text : List Char) : List Int :=
  ((text.splitOnP fun c => !isNumeral c).filter fun cs => !cs.isEmpty).map value

section Digits

variable {n : Nat} {z : Int} {c : Char}

theorem isDigit_of_mem (h : c ∈ Nat.toDigits 10 n) : c.isDigit = true :=
  Nat.isDigit_of_mem_toDigits (by decide) (by decide) h

theorem isNumeral_of_mem (h : c ∈ digits z) : isNumeral c = true := by
  cases z with
  | ofNat n => simp [isNumeral, isDigit_of_mem h]
  | negSucc n =>
      rcases List.mem_cons.mp h with rfl | h
      · rfl
      · simp [isNumeral, isDigit_of_mem h]

theorem digits_ne_nil (z : Int) : digits z ≠ [] := by
  cases z with
  | ofNat n => exact Nat.toDigits_ne_nil
  | negSucc n => exact List.cons_ne_nil _ _

theorem value_toDigits (n : Nat) : value (Nat.toDigits 10 n) = n := by
  rw [value.eq_def]
  split
  · rename_i cs heq
    have hdigit : ('-').isDigit = true := isDigit_of_mem (n := n) (heq ▸ List.mem_cons_self)
    cases hdigit
  · rw [Nat.ofDigitChars_ten_toDigits]

theorem value_digits (z : Int) : value (digits z) = z := by
  cases z with
  | ofNat n => exact value_toDigits n
  | negSucc n =>
      rw [digits, value, Nat.ofDigitChars_ten_toDigits]
      omega

end Digits

section Reading

variable {c : Char} {cs text : List Char} {f : Field} {fields : List Field}

theorem numbers_cons (hc : isNumeral c = false) : numbers (c :: cs) = numbers cs := by
  have hsplit : (c :: cs).splitOnP (fun c => !isNumeral c) =
      [] :: cs.splitOnP fun c => !isNumeral c :=
    List.splitOnP_append_cons [] cs (by simp [hc])
  simp [numbers, hsplit]

theorem numbers_append (h : ∀ c ∈ text, isNumeral c = false) : numbers (text ++ cs) = numbers cs := by
  induction text with
  | nil => rfl
  | cons c text ih =>
      rw [List.cons_append, numbers_cons (h c List.mem_cons_self)]
      exact ih fun c hc => h c (List.mem_cons_of_mem _ hc)

theorem numbers_digits (z : Int) (hc : isNumeral c = false) :
    numbers (digits z ++ c :: cs) = z :: numbers cs := by
  have hsplit : (digits z ++ c :: cs).splitOnP (fun c => !isNumeral c) =
      digits z :: cs.splitOnP fun c => !isNumeral c := by
    refine List.splitOnP_append_cons_of_forall_mem (fun c hc => ?_) c (by simp [hc]) cs
    rw [isNumeral_of_mem hc, Bool.not_true]
  simp [numbers, hsplit, digits_ne_nil, value_digits]

theorem numbers_field (h : f.apart = true) : numbers (f.text ++ cs) = f.number :: numbers cs := by
  obtain ⟨before, z, after⟩ := f
  simp only [Field.apart, Bool.and_eq_true, List.all_eq_true, Bool.not_eq_true'] at h
  obtain ⟨⟨hbefore, hafter⟩, hnonempty⟩ := h
  obtain ⟨c, after', hsplit⟩ := List.exists_cons_of_ne_nil (List.isEmpty_eq_false_iff.mp hnonempty)
  rw [hsplit] at hafter
  rw [Field.text, hsplit, List.append_assoc, numbers_append hbefore, List.append_assoc,
    List.cons_append, numbers_digits z (hafter c List.mem_cons_self)]
  exact congrArg _ (numbers_append fun c hc => hafter c (List.mem_cons_of_mem _ hc))

theorem numbers_flatMap (h : ∀ f ∈ fields, f.apart = true) :
    numbers (fields.flatMap Field.text) = fields.map Field.number := by
  induction fields with
  | nil => rfl
  | cons f fields ih =>
      rw [List.flatMap_cons, numbers_field (h f List.mem_cons_self), List.map_cons]
      exact congrArg _ (ih fun f hf => h f (List.mem_cons_of_mem _ hf))

end Reading

end Numerals
