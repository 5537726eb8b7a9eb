import Mathlib.Data.List.Nodup
import Mathlib.Data.List.Zip

namespace Sql

variable {α β γ : Type}

-- gen_random_uuid: no value is drawn twice.
structure Uuids where
  draw : Nat → Nat
  injective : Function.Injective draw

-- Which of several matching rows an UPDATE … FROM takes is not determined.
structure Pick where
  pick : {α : Type} → List α → Option α
  mem : ∀ {α : Type} {rows : List α} {row : α}, pick rows = some row → row ∈ rows
  total : ∀ {α : Type} {rows : List α}, rows ≠ [] → (pick rows).isSome = true

def Pick.first : Pick where
  pick rows := rows.head?
  mem h := List.mem_of_head? h
  total h := List.isSome_head?.mpr h

-- SELECT gen_random_uuid(), … FROM rows
def withUuids (u : Uuids) (rows : List α) : List (Nat × α) :=
  ((List.range rows.length).map u.draw).zip rows

-- INSERT: a row that is not valid, or that clashes with another, fails the statement.
def insertInto (valid : β → Bool) (clash : β → β → Bool) (table rows : List β) :
    Option (List β) :=
  rows.foldlM (fun table row =>
    if valid row && !table.any (clash row) then some (table ++ [row]) else none) table

-- INSERT … ON CONFLICT DO NOTHING
def insertOrSkip (conflict : β → β → Bool) (valid : β → Bool) (clash : β → β → Bool)
    (table rows : List β) : Option (List β) :=
  rows.foldlM (fun table row =>
    if table.any (conflict row) then some table else insertInto valid clash table [row]) table

-- UPDATE … FROM: `found` are the rows that match one of the table.
def updateFrom (p : Pick) (found : α → List β) (set : α → β → α) (table : List α) : List α :=
  table.map fun row =>
    match p.pick (found row) with
    | some other => set row other
    | none => row

theorem pick_singleton (p : Pick) (a : α) : p.pick [a] = some a := by
  obtain ⟨b, hb⟩ := Option.isSome_iff_exists.mp (p.total (List.cons_ne_nil a []))
  rw [hb, List.mem_singleton.mp (p.mem hb)]

theorem pick_nil (p : Pick) : p.pick ([] : List α) = none := by
  rw [Option.eq_none_iff_forall_ne_some]
  exact fun a ha => List.not_mem_nil (p.mem ha)

@[simp] theorem withUuids_snd (u : Uuids) (rows : List α) :
    (withUuids u rows).map Prod.snd = rows :=
  List.map_snd_zip (by simp)

theorem withUuids_fst_nodup (u : Uuids) (rows : List α) :
    ((withUuids u rows).map Prod.fst).Nodup := by
  rw [withUuids, List.map_fst_zip (by simp)]
  exact List.nodup_range.map u.injective

@[simp] theorem withUuids_nil (u : Uuids) : withUuids u ([] : List α) = [] := rfl

theorem insertInto_eq {valid : β → Bool} {clash : β → β → Bool} {table rows : List β}
    (hvalid : ∀ row ∈ rows, valid row = true)
    (hclash : (table ++ rows).Pairwise fun a b => clash b a = false) :
    insertInto valid clash table rows = some (table ++ rows) := by
  induction rows generalizing table with
  | nil => simp [insertInto]
  | cons row rows ih =>
      have hrow : valid row = true := hvalid row List.mem_cons_self
      have hfree : table.any (clash row) = false := by
        rw [List.any_eq_false]
        intro other hother
        rw [Bool.not_eq_true]
        exact (List.pairwise_append.mp hclash).2.2 other hother row List.mem_cons_self
      have hrest := ih (fun r hr => hvalid r (List.mem_cons_of_mem row hr))
        (show ((table ++ [row]) ++ rows).Pairwise fun a b => clash b a = false by simpa using hclash)
      simp only [insertInto, List.append_assoc, List.singleton_append] at hrest
      simp only [insertInto, List.foldlM_cons, hrow, hfree, Bool.not_false, Bool.and_self, if_true]
      exact hrest

-- Rows none of which conflicts are all inserted.
theorem insertOrSkip_new {conflict : β → β → Bool} {valid : β → Bool} {clash : β → β → Bool}
    {table rows : List β} (hvalid : ∀ row ∈ rows, valid row = true)
    (hclash : (table ++ rows).Pairwise fun a b => clash b a = false)
    (hconflict : (table ++ rows).Pairwise fun a b => conflict b a = false) :
    insertOrSkip conflict valid clash table rows = some (table ++ rows) := by
  induction rows generalizing table with
  | nil => simp [insertOrSkip]
  | cons row rows ih =>
      have hfree : table.any (conflict row) = false := by
        rw [List.any_eq_false]
        intro other hother
        rw [Bool.not_eq_true]
        exact (List.pairwise_append.mp hconflict).2.2 other hother row List.mem_cons_self
      have hsplit : table ++ row :: rows = (table ++ [row]) ++ rows := by simp
      rw [hsplit] at hclash hconflict ⊢
      have hone : insertInto valid clash table [row] = some (table ++ [row]) := by
        refine insertInto_eq (fun r hr => ?_) (List.pairwise_append.mp hclash).1
        exact List.mem_singleton.mp hr ▸ hvalid row List.mem_cons_self
      have hrest := ih (fun r hr => hvalid r (List.mem_cons_of_mem row hr)) hclash hconflict
      simp only [insertOrSkip, List.foldlM_cons, hfree, hone] at hrest ⊢
      exact hrest

-- Rows all of which conflict are all skipped.
theorem insertOrSkip_old {conflict : β → β → Bool} {valid : β → Bool} {clash : β → β → Bool}
    {table rows : List β} (h : ∀ row ∈ rows, table.any (conflict row) = true) :
    insertOrSkip conflict valid clash table rows = some table := by
  induction rows with
  | nil => rfl
  | cons row rows ih =>
      have hrow := h row List.mem_cons_self
      have hrest := ih fun r hr => h r (List.mem_cons_of_mem row hr)
      simp only [insertOrSkip, List.foldlM_cons, hrow, if_true] at hrest ⊢
      exact hrest

section Update

variable {p : Pick} {found : α → List β} {set : α → β → α} {table : List α}

-- Columns that are not set keep their values.
theorem updateFrom_map {column : α → γ} (h : ∀ row other, column (set row other) = column row) :
    (updateFrom p found set table).map column = table.map column := by
  rw [updateFrom, List.map_map]
  refine List.map_congr_left fun row _ => ?_
  simp only [Function.comp_apply]
  split
  · exact h row _
  · rfl

theorem mem_updateFrom {Q : α → β → Prop}
    (h : ∀ row ∈ table, ∃ other, found row = [other] ∧ Q row other) {row' : α}
    (hrow' : row' ∈ updateFrom p found set table) :
    ∃ row ∈ table, ∃ other, row' = set row other ∧ Q row other := by
  obtain ⟨row, hrow, rfl⟩ := List.mem_map.mp hrow'
  obtain ⟨other, hone, hq⟩ := h row hrow
  refine ⟨row, hrow, other, ?_, hq⟩
  simp only [hone, pick_singleton]

theorem updateFrom_nil (h : ∀ row ∈ table, found row = []) :
    updateFrom p found set table = table := by
  rw [updateFrom]
  conv_rhs => rw [← List.map_id table]
  refine List.map_congr_left fun row hrow => ?_
  simp only [h row hrow, pick_nil, id]

end Update

-- A join on a column without duplicates finds one row.
theorem filter_key [DecidableEq γ] {key : α → γ} {rows : List α} (h : (rows.map key).Nodup)
    {a : α} (ha : a ∈ rows) : rows.filter (fun b => key b = key a) = [a] := by
  induction rows with
  | nil => cases ha
  | cons b rows ih =>
      rw [List.map_cons, List.nodup_cons] at h
      have hnone : ∀ c, key c = key b → c ∉ rows := fun c hc hmem =>
        h.1 (hc ▸ List.mem_map_of_mem hmem)
      rcases List.mem_cons.mp ha with rfl | ha
      · have hrest : rows.filter (fun b => key b = key a) = [] :=
          List.filter_eq_nil_iff.mpr fun c hc => by simpa using fun hkey => hnone c hkey hc
        simp [hrest]
      · have hne : key b ≠ key a := fun hkey => hnone a hkey.symm ha
        simp [hne, ih h.2 ha]

theorem pairwise_of_nodup [DecidableEq γ] {key : α → γ} {rows : List α}
    (h : (rows.map key).Nodup) : rows.Pairwise fun a b => decide (key b = key a) = false := by
  refine (List.pairwise_map.mp h).imp fun {a b} hne => ?_
  simpa using Ne.symm hne

end Sql
