import Mathlib.Data.List.Induction

/-!
# Lib — Layout

Text laid out in rows of a width: a newline ends the row, and so does the character that fills it.
`screen` is the last rows of a layout, as many as a window has, and `cell` what stands at a place of
it.  `cell_append` and `cell_endRow` say what the two ways a layout grows do to a window.
-/

namespace ZeptoOS.Lib

variable {C : Type*}

/-- The rows that are ended, and the one that is not. -/
structure Layout (C : Type*) where
  done : List (List C)
  row : List C

namespace Layout

/-- No text. -/
def empty : Layout C := ⟨[], []⟩

/-- `c` at the end of the row. -/
def append (L : Layout C) (c : C) : Layout C := ⟨L.done, L.row ++ [c]⟩

/-- The next row. -/
def endRow (L : Layout C) : Layout C := ⟨L.done ++ [L.row], []⟩

def rows (L : Layout C) : List (List C) := L.done ++ [L.row]

/-- The last `height` rows. -/
def screen (L : Layout C) (height : ℕ) : List (List C) := L.rows.drop (L.rows.length - height)

/-- The character in row `r` and column `k` of the screen, if there is one. -/
def cell (L : Layout C) (height r k : ℕ) : Option C := ((L.screen height)[r]?).bind (·[k]?)

section Put

variable [DecidableEq C] (newline : C) (width : ℕ)

/-- The layout with one more character. -/
def put (L : Layout C) (c : C) : Layout C :=
  if c = newline then L.endRow
  else if (L.append c).row.length = width then (L.append c).endRow
  else L.append c

/-- The layout of a text. -/
def ofText (text : List C) : Layout C := text.foldl (put newline width) empty

variable {newline width}

/-- The row is never full. -/
theorem row_put_lt {L : Layout C} (hL : L.row.length < width) (c : C) :
    (L.put newline width c).row.length < width := by
  have hend : ∀ L' : Layout C, L'.endRow.row.length < width := fun _ => Nat.zero_lt_of_lt hL
  rw [put]
  split
  · exact hend _
  · split
    · exact hend _
    · rename_i hfull
      rw [append, List.length_append, List.length_singleton] at hfull ⊢
      omega

theorem ofText_concat (text : List C) (c : C) :
    ofText newline width (text ++ [c]) = (ofText newline width text).put newline width c := by
  rw [ofText, List.foldl_append]
  rfl

theorem row_ofText_lt (hwidth : 0 < width) (text : List C) :
    (ofText newline width text).row.length < width := by
  induction text using List.reverseRecOn with
  | nil => exact hwidth
  | append_singleton text c ih =>
      rw [ofText_concat]
      exact row_put_lt ih c

end Put

variable {L : Layout C} {height r k : ℕ}

theorem length_rows : L.rows.length = L.done.length + 1 := by
  rw [rows, List.length_append, List.length_singleton]

theorem cell_eq : L.cell height r k = (L.rows[L.done.length + 1 - height + r]?).bind (·[k]?) := by
  rw [cell, screen, List.getElem?_drop, length_rows]

/-- There is nothing after the end of the text. -/
theorem cell_after (h : L.done.length + 1 - height + r > L.done.length ∨
    L.done.length + 1 - height + r = L.done.length ∧ L.row.length ≤ k) :
    L.cell height r k = none := by
  rw [cell_eq, rows]
  rcases h with h | ⟨h, hk⟩
  · rw [List.getElem?_eq_none (by rw [List.length_append, List.length_singleton]; omega)]
    rfl
  · rw [h, List.getElem?_append_right (Nat.le_refl _), Nat.sub_self]
    exact List.getElem?_eq_none hk

/-- A character at the end of the row stands where the row ended. -/
theorem cell_append (c : C) : (L.append c).cell height r k =
    if L.done.length + 1 - height + r = L.done.length ∧ k = L.row.length then some c
    else L.cell height r k := by
  rw [cell_eq, cell_eq, rows, rows]
  have hdone : (L.append c).done = L.done := rfl
  have hrow : (L.append c).row = L.row ++ [c] := rfl
  rw [hdone, hrow]
  generalize L.done.length + 1 - height + r = i
  rcases Nat.lt_trichotomy i L.done.length with h | h | h
  · rw [List.getElem?_append_left h, List.getElem?_append_left h, if_neg (by omega)]
  · subst h
    simp only [List.getElem?_concat_length, Option.bind_some, true_and]
    split
    · rename_i e
      rw [e, List.getElem?_concat_length]
    · rename_i e
      rcases Nat.lt_or_gt_of_ne e with hlt | hgt
      · exact List.getElem?_append_left hlt
      · rw [List.getElem?_eq_none (by rw [List.length_append, List.length_singleton]; omega),
          List.getElem?_eq_none (by omega)]
  · rw [List.getElem?_eq_none (by rw [List.length_append, List.length_singleton]; omega),
      List.getElem?_eq_none (by rw [List.length_append, List.length_singleton]; omega),
      if_neg (by omega)]

/-- A row that ends moves the screen up by one where it is full already. -/
theorem cell_endRow : L.endRow.cell height r k =
    if L.done.length + 1 < height then L.cell height r k else L.cell height (r + 1) k := by
  have hdone : L.endRow.done = L.rows := rfl
  have hrow : L.endRow.row = [] := rfl
  have hend : ∀ i : ℕ, (L.endRow.rows[i]?).bind (·[k]?) = (L.rows[i]?).bind (·[k]?) := by
    intro i
    rw [rows, hdone, hrow]
    rcases Nat.lt_trichotomy i L.rows.length with h | h | h
    · rw [List.getElem?_append_left h]
    · subst h
      rw [List.getElem?_concat_length, List.getElem?_eq_none (Nat.le_refl _)]
      rfl
    · rw [List.getElem?_eq_none (by rw [List.length_append, List.length_singleton]; omega),
        List.getElem?_eq_none (by omega)]
  rw [cell_eq, hend, hdone, length_rows]
  split
  · rw [cell_eq]
    congr 2
    omega
  · rw [cell_eq]
    congr 2
    omega

end Layout

end ZeptoOS.Lib
