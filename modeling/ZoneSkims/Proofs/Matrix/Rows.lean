import Mathlib.Tactic.Ring
import ZoneSkims.Matrix.Rows

/-!
# Shares cover the rows

The shares of a number of rows follow each other without a gap, and every row is in one of them.

* `rowShares_rows`: the rows of all shares, one share after the other, are all rows in order.
* `length_rowShares`: there is one share for each part.
-/

namespace ZoneSkims

namespace RowRange

@[simp] theorem mem_rows {range : RowRange} {row : Nat} : row ∈ range.rows ↔ row ∈ range := by
  rw [rows, length, List.mem_range'_1]
  change _ ↔ range.start ≤ row ∧ row < range.stop
  omega

@[simp] theorem length_mk (start length : Nat) :
    (RowRange.mk start (start + length)).length = length := by
  simp [RowRange.length]

end RowRange

/-! ## Neighbouring ranges -/

@[simp] theorem length_consecutive (start : Nat) (lengths : List Nat) :
    (consecutive start lengths).length = lengths.length := by
  induction lengths generalizing start with
  | nil => rfl
  | cons length lengths ih => simp [consecutive, ih]

/-- Neighbouring ranges leave no row out and repeat none. -/
theorem consecutive_rows (start : Nat) (lengths : List Nat) :
    (consecutive start lengths).flatMap RowRange.rows = List.range' start lengths.sum := by
  induction lengths generalizing start with
  | nil => rfl
  | cons length lengths ih =>
    rw [consecutive, List.flatMap_cons, ih, List.sum_cons, RowRange.rows, RowRange.length_mk]
    exact List.range'_append_1

theorem stop_le_of_mem_consecutive {start : Nat} {lengths : List Nat} {range : RowRange}
    (h : range ∈ consecutive start lengths) : range.stop ≤ start + lengths.sum := by
  induction lengths generalizing start with
  | nil => cases h
  | cons length lengths ih =>
    rw [List.sum_cons]
    rcases List.mem_cons.mp h with rfl | h
    · exact Nat.add_le_add_left (Nat.le_add_right _ _) _
    · exact Nat.add_assoc start length lengths.sum ▸ ih h

/-! ## Shares -/

theorem length_shareLengths {parts : Nat} (h : 0 < parts) (rows : Nat) :
    (shareLengths rows parts).length = parts := by
  have hlt : rows % parts < parts := Nat.mod_lt rows h
  rw [shareLengths, List.length_append, List.length_replicate, List.length_replicate]
  omega

theorem sum_shareLengths {parts : Nat} (h : 0 < parts) (rows : Nat) :
    (shareLengths rows parts).sum = rows := by
  have hle : rows % parts ≤ parts := Nat.le_of_lt (Nat.mod_lt rows h)
  rw [shareLengths, List.sum_append, List.sum_replicate_nat, List.sum_replicate_nat]
  calc rows % parts * (rows / parts + 1) + (parts - rows % parts) * (rows / parts)
      = (rows % parts + (parts - rows % parts)) * (rows / parts) + rows % parts := by ring
    _ = parts * (rows / parts) + rows % parts := by rw [Nat.add_sub_cancel' hle]
    _ = rows := Nat.div_add_mod rows parts

theorem length_rowShares {parts : Nat} (h : 0 < parts) (rows : Nat) :
    (rowShares rows parts).length = parts := by
  rw [rowShares, length_consecutive, length_shareLengths (by omega)]
  exact Nat.max_eq_left h

theorem stop_le_of_mem_rowShares {rows parts : Nat} {range : RowRange}
    (h : range ∈ rowShares rows parts) : range.stop ≤ rows := by
  have hle := stop_le_of_mem_consecutive h
  rwa [sum_shareLengths (by omega), Nat.zero_add] at hle

/-- The shares of the rows, one after the other, are the rows in order. -/
theorem rowShares_rows (rows parts : Nat) :
    (rowShares rows parts).flatMap RowRange.rows = List.range rows := by
  rw [rowShares, consecutive_rows, sum_shareLengths (by omega), List.range_eq_range']

end ZoneSkims
