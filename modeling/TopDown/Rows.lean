-- Numbered rows: a list of lists indexed from zero, where a row that was never written
-- reads as empty.

namespace TopDown.Rows

variable {α : Type}

/-- The row with this number, empty if there is none. -/
def row (rows : List (List α)) (i : Nat) : List α := rows[i]?.getD []

/-- Empty rows at the end until there are `n` of them. -/
def grow (n : Nat) (rows : List (List α)) : List (List α) :=
  rows ++ List.replicate (n - rows.length) []

/-- Replace row `i`, which is made if it is not there. -/
def put (i : Nat) (r : List α) (rows : List (List α)) : List (List α) :=
  (grow (i + 1) rows).set i r

/-- Append one item to row `i`. -/
def push (i : Nat) (x : α) (rows : List (List α)) : List (List α) :=
  put i (row rows i ++ [x]) rows

/-! ## Laws -/

theorem row_of_length_le {rows : List (List α)} {i : Nat} (h : rows.length ≤ i) :
    row rows i = [] := by
  rw [row, List.getElem?_eq_none h]
  rfl

theorem length_grow (n : Nat) (rows : List (List α)) :
    (grow n rows).length = max rows.length n := by
  simp only [grow, List.length_append, List.length_replicate]
  omega

theorem length_put (i : Nat) (r : List α) (rows : List (List α)) :
    (put i r rows).length = max rows.length (i + 1) := by
  rw [put, List.length_set, length_grow]

theorem row_grow (n i : Nat) (rows : List (List α)) : row (grow n rows) i = row rows i := by
  unfold row grow
  by_cases h : i < rows.length
  · rw [List.getElem?_append_left h]
  · rw [List.getElem?_append_right (by omega), List.getElem?_replicate,
      List.getElem?_eq_none (by omega)]
    split <;> rfl

theorem row_put (i j : Nat) (r : List α) (rows : List (List α)) :
    row (put i r rows) j = if i = j then r else row rows j := by
  have hl : i < (grow (i + 1) rows).length := by rw [length_grow]; omega
  by_cases h : i = j
  · subst h
    simp [put, row, hl]
  · rw [if_neg h, ← row_grow (i + 1) j rows]
    simp [put, row, h]

theorem row_push (i j : Nat) (x : α) (rows : List (List α)) :
    row (push i x rows) j = if i = j then row rows j ++ [x] else row rows j := by
  rw [push, row_put]
  split
  · next h => rw [h]
  · rfl

/-- One more row stands after all others. -/
theorem row_append_singleton (rows : List (List α)) (r : List α) (i : Nat) :
    row (rows ++ [r]) i = if rows.length = i then r else row rows i := by
  unfold row
  rw [List.getElem?_append]
  by_cases hlt : i < rows.length
  · rw [if_pos hlt, if_neg (by omega)]
  · rw [if_neg hlt]
    by_cases heq : rows.length = i
    · rw [if_pos heq, heq, Nat.sub_self]
      rfl
    · rw [if_neg heq, List.getElem?_eq_none (by simp; omega), List.getElem?_eq_none (by omega)]

/-- Rows that are as many and read the same are the same. -/
theorem ext {rows others : List (List α)} (hlen : rows.length = others.length)
    (hrow : ∀ i, row rows i = row others i) : rows = others := by
  apply List.ext_getElem hlen
  intro i hi hi'
  have h := hrow i
  rw [row, row, List.getElem?_eq_getElem hi, List.getElem?_eq_getElem hi'] at h
  exact h

end TopDown.Rows
