import Mathlib.Algebra.BigOperators.Group.List.Lemmas
import Mathlib.Algebra.GroupWithZero.Nat
import Mathlib.Data.List.Nodup

namespace Tally

variable {α κ β γ : Type} [DecidableEq κ]

-- SELECT key, count(*) … GROUP BY key: a row for each key that occurs.
def groupCount (key : α → κ) (rows : List α) : List (κ × Nat) :=
  (rows.map key).dedup.map fun k => (k, (rows.map key).count k)

def keys (d : List (κ × β)) : List κ := d.map Prod.fst

-- d[k] = x of a dict that keeps the order in which its keys have come.
def store (k : κ) (x : β) (d : List (κ × β)) : List (κ × β) :=
  if k ∈ keys d then d.map fun p => if p.1 = k then (k, x) else p else d ++ [(k, x)]

-- An entry changed in place.
def adjust (k : κ) (f : β → β) (d : List (κ × β)) : List (κ × β) :=
  d.map fun p => if p.1 = k then (p.1, f p.2) else p

-- Rows counted into the entries of their keys; a key that is not there is passed over.
def count (key : γ → κ) (add : γ → β → β) (d : List (κ × β)) (rows : List γ) : List (κ × β) :=
  rows.foldl (fun d r => if key r ∈ keys d then adjust (key r) (add r) d else d) d

def total (weight : β → Nat) (d : List (κ × β)) : Nat := (d.map fun p => weight p.2).sum

section Groups

theorem mem_groupCount {key : α → κ} {rows : List α} {g : κ × Nat} (h : g ∈ groupCount key rows) :
    ∃ a ∈ rows, key a = g.1 := by
  obtain ⟨k, hk, rfl⟩ := List.mem_map.mp h
  obtain ⟨a, ha, rfl⟩ := List.mem_map.mp (List.mem_dedup.mp hk)
  exact ⟨a, ha, rfl⟩

-- The groups partition the rows.
theorem sum_groupCount (key : α → κ) (rows : List α) (p : κ → Bool) :
    ((groupCount key rows).map fun g => if p g.1 then g.2 else 0).sum =
      rows.countP fun a => p (key a) := by
  have hfilter : ∀ ks : List κ, (ks.map fun k => if p k then (rows.map key).count k else 0).sum =
      ((ks.filter p).map fun k => (rows.map key).count k).sum := by
    intro ks
    induction ks with
    | nil => rfl
    | cons k ks ih =>
        by_cases hp : p k = true
        · simp [hp, ih]
        · simp [hp, ih]
  have hgroups : (groupCount key rows).map (fun g => if p g.1 then g.2 else 0) =
      (rows.map key).dedup.map fun k => if p k then (rows.map key).count k else 0 := by
    simp [groupCount]
  rw [hgroups, hfilter, List.sum_map_count_dedup_filter_eq_countP, List.countP_map]
  rfl

end Groups

section Dict

variable {d : List (κ × β)} {k : κ}

omit [DecidableEq κ] in
@[simp] theorem keys_append (d d' : List (κ × β)) : keys (d ++ d') = keys d ++ keys d' :=
  List.map_append

@[simp] theorem keys_adjust (k : κ) (f : β → β) (d : List (κ × β)) :
    keys (adjust k f d) = keys d := by
  unfold keys adjust
  rw [List.map_map]
  apply List.map_congr_left
  intro p _
  by_cases h : p.1 = k
  · simp [h]
  · simp [h]

theorem store_of_notMem (x : β) (h : k ∉ keys d) : store k x d = d ++ [(k, x)] := by
  rw [store, if_neg h]

-- Keys that are all new come one after the other.
theorem foldl_store (x : β) (ks : List κ) (h : (keys d ++ ks).Nodup) :
    ks.foldl (fun d k => store k x d) d = d ++ ks.map fun k => (k, x) := by
  induction ks generalizing d with
  | nil => simp
  | cons k ks ih =>
      have hnew : k ∉ keys d := by
        intro hk
        exact (List.nodup_append.mp h).2.2 k hk k List.mem_cons_self rfl
      have hnodup : (keys (d ++ [(k, x)]) ++ ks).Nodup := by
        rw [keys_append]
        simpa [keys] using h
      rw [List.foldl_cons, store_of_notMem x hnew, ih hnodup]
      simp

theorem keys_count (key : γ → κ) (add : γ → β → β) (d : List (κ × β)) (rows : List γ) :
    keys (count key add d rows) = keys d := by
  unfold count
  induction rows generalizing d with
  | nil => rfl
  | cons r rows ih =>
      rw [List.foldl_cons, ih]
      split
      · rw [keys_adjust]
      · rfl

theorem adjust_of_notMem (f : β → β) (h : k ∉ keys d) : adjust k f d = d := by
  have hsame : ∀ p ∈ d, (if p.1 = k then (p.1, f p.2) else p) = p := by
    intro p hp
    rw [if_neg]
    rintro rfl
    exact h (List.mem_map_of_mem hp)
  exact (List.map_congr_left hsame).trans (List.map_id' d)

-- One entry has the key.
theorem total_adjust {weight : β → Nat} {f : β → β} {n : Nat} (hf : ∀ x, weight (f x) = weight x + n)
    (hd : (keys d).Nodup) (hk : k ∈ keys d) :
    total weight (adjust k f d) = total weight d + n := by
  induction d with
  | nil => exact absurd hk List.not_mem_nil
  | cons p d ih =>
      have hnodup : p.1 ∉ keys d ∧ (keys d).Nodup := List.nodup_cons.mp hd
      by_cases hp : p.1 = k
      · have hrest : adjust k f d = d := adjust_of_notMem f (hp ▸ hnodup.1)
        have hcons : adjust k f (p :: d) = (p.1, f p.2) :: adjust k f d := by simp [adjust, hp]
        have hweight := hf p.2
        rw [hcons, hrest]
        simp only [total, List.map_cons, List.sum_cons]
        omega
      · have hmem : k ∈ keys d := by
          rcases List.mem_cons.mp hk with heq | hmem
          · exact absurd heq.symm hp
          · exact hmem
        have hcons : adjust k f (p :: d) = p :: adjust k f d := by simp [adjust, hp]
        have hrest := ih hnodup.2 hmem
        rw [hcons]
        simp only [total, List.map_cons, List.sum_cons] at hrest ⊢
        omega

-- No row is passed over if every key is there.
theorem total_count {key : γ → κ} {add : γ → β → β} {weight : β → Nat} {gain : γ → Nat}
    (hadd : ∀ r x, weight (add r x) = weight x + gain r) (hd : (keys d).Nodup) {rows : List γ}
    (hrows : ∀ r ∈ rows, key r ∈ keys d) :
    total weight (count key add d rows) = total weight d + (rows.map gain).sum := by
  unfold count
  induction rows generalizing d with
  | nil => simp
  | cons r rows ih =>
      have hr := hrows r List.mem_cons_self
      have hfirst := total_adjust (hadd r) hd hr
      have hrest : ∀ r' ∈ rows, key r' ∈ keys (adjust (key r) (add r) d) := by
        intro r' hr'
        rw [keys_adjust]
        exact hrows r' (List.mem_cons_of_mem r hr')
      have hcount := ih (by rwa [keys_adjust]) hrest
      rw [List.foldl_cons, if_pos hr, hcount, hfirst, List.map_cons, List.sum_cons]
      omega

omit [DecidableEq κ] in
theorem total_replicate {weight : β → Nat} {x : β} (hx : weight x = 0) (ks : List κ) :
    total weight (ks.map fun k => (k, x)) = 0 := by
  unfold total
  apply List.sum_eq_zero
  intro n hn
  simp only [List.map_map, List.mem_map, Function.comp_apply] at hn
  obtain ⟨k, -, rfl⟩ := hn
  exact hx

end Dict

end Tally
