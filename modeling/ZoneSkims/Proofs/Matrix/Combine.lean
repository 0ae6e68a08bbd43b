import Mathlib.Data.List.Range
import ZoneSkims.Proofs.Matrix.Cells
import ZoneSkims.Proofs.Outcome

/-!
# Sums and multiples of matrices, cell by cell

Matrices over the same ids are added and scaled cell by cell. A cell that was computed on one side
only takes that value.

* `increasedBy`: a cell after the cell of another matrix was added.
* `Matrix.combine_eq`: the sum of two matrices over the same ids.
* `Matrix.cell_scale`: a cell of a scaled matrix.
-/

namespace ZoneSkims

variable {ι β : Type} [Scalar β]

/-- A cell increased by another one, which leaves it as it is when it was never computed. -/
def increasedBy (cell other : Option β) : Option β :=
  match other with
  | some value => increase cell value
  | none => cell

/-- The places of rows and columns, row by row, are the places of the storage in order. -/
theorem flatMap_places (rows cols : Nat) :
    (List.range rows).flatMap (fun r => (List.range cols).map fun c => r * cols + c) =
      List.range (rows * cols) := by
  induction rows with
  | zero => simp
  | succ rows ih =>
    rw [List.range_succ, List.flatMap_append, ih, Nat.succ_mul, List.range_add]
    simp

namespace Matrix

/-- Neighbouring cells are increased one after the other. -/
theorem increaseAt_range' (cells : Array (Option β)) (values : List (Option β)) (start : Nat) :
    increaseAt cells (List.range' start values.length) values =
      cells.mapIdx fun i cell =>
        if start ≤ i then increasedBy cell values[i - start]?.join else cell := by
  induction values generalizing cells start with
  | nil =>
    apply Array.ext_getElem?
    intro i
    simp [increaseAt, increasedBy]
  | cons value values ih =>
    have hstep : increaseAt cells (List.range' start (value :: values).length) (value :: values) =
        increaseAt (increaseAt cells [start] [value]) (List.range' (start + 1) values.length)
          values := by
      cases value <;> rfl
    have hfirst : ∀ i, (increaseAt cells [start] [value])[i]? =
        if i = start then cells[i]?.map (increasedBy · value) else cells[i]? := by
      intro i
      cases value with
      | none => simp [increaseAt, increasedBy]
      | some v =>
        change (cells.modify start (increase · v))[i]? = _
        rw [Array.getElem?_modify]
        simp [increasedBy, eq_comm]
    rw [hstep, ih]
    apply Array.ext_getElem?
    intro i
    rw [Array.getElem?_mapIdx, Array.getElem?_mapIdx, hfirst]
    rcases Nat.lt_trichotomy i start with hi | rfl | hi
    · simp [Nat.ne_of_lt hi, show ¬ start ≤ i by omega, show ¬ start + 1 ≤ i by omega]
    · rw [if_pos rfl, Option.map_map]
      congr 1
      funext cell
      simp
    · obtain ⟨n, rfl⟩ := Nat.exists_eq_add_of_lt hi
      simp [show start + n + 1 ≠ start by omega, show start ≤ start + n + 1 by omega,
        show start + n + 1 - start = n + 1 by omega, show start + n + 1 - (start + 1) = n by omega,
        show start + 1 ≤ start + n + 1 by omega]

variable [DecidableEq ι]

omit [Scalar β] in
/-- The positions of all ids of a matrix. -/
theorem mapM_index {ids : Array ι} {index : ι → Except MatrixError Nat} (hnodup : ids.toList.Nodup)
    (hindex : ∀ id i, ids.idxOf? id = some i → index id = .ok i) :
    ids.toList.mapM index = .ok (List.range ids.size) := by
  rw [mapM_eq_ok_iff, List.forall₂_iff_get]
  refine ⟨by simp, fun i hi hi' => ?_⟩
  refine (hindex _ i (idxOf?_of_nodup hnodup ?_)).trans ?_
  · rw [← Array.getElem?_toList, List.getElem?_eq_getElem hi, List.get_eq_getElem]
  · simp

variable {m other : Matrix ι β}

/-- Matrices over the same ids are added cell by cell. -/
theorem combine_eq (hrows : m.rowIds.toList.Nodup) (hcols : m.colIds.toList.Nodup)
    (hrowIds : other.rowIds = m.rowIds) (hcolIds : other.colIds = m.colIds)
    (h : m.WellFormed) (h' : other.WellFormed) :
    m.combine other =
      .ok (m.withCells fun row col => increasedBy (m.cell row col) (other.cell row col)) := by
  have hrow : other.rowIds.toList.mapM m.rowIndex = .ok (List.range m.rows) := by
    rw [hrowIds]
    exact mapM_index hrows fun id i hi => by rw [rowIndex, rowIndex?, hi]
  have hcol : other.colIds.toList.mapM m.colIndex = .ok (List.range m.cols) := by
    rw [hcolIds]
    exact mapM_index hcols fun id i hi => by rw [colIndex, colIndex?, hi]
  have hsize : m.rows * m.cols = other.cells.toList.length := by
    rw [Array.length_toList, h', rows, cols, rows, cols, hrowIds, hcolIds]
  have hcells : increaseAt m.cells (List.range (m.rows * m.cols)) other.cells.toList =
      grid m.cols 0 m.rows fun row col => increasedBy (m.cell row col) (other.cell row col) := by
    rw [List.range_eq_range', hsize, increaseAt_range']
    refine eq_grid (by rw [Array.size_mapIdx, h]) fun row hr col hc => ?_
    have hother : other.cells[row * m.cols + col]? = some (other.cell row col) := by
      have hcols' : other.cols = m.cols := by rw [cols, cols, hcolIds]
      rw [← hcols']
      exact h'.getElem?_cells (by rwa [rows, hrowIds]) (by rwa [hcols'])
    rw [Array.getElem?_mapIdx, h.getElem?_cells hr hc]
    simp [hother]
  rw [combine, hrow, hcol]
  change Except.ok { m with
    cells := increaseAt m.cells ((List.range m.rows).flatMap fun r =>
      (List.range m.cols).map fun c => r * m.cols + c) other.cells.toList } = _
  rw [flatMap_places, hcells]
  rfl

omit [DecidableEq ι] in
theorem wellFormed_scale (h : m.WellFormed) (factor : β) : (m.scale factor).WellFormed := by
  rw [WellFormed, scale, Array.size_map]
  exact h

omit [DecidableEq ι] in
theorem cell_scale (factor : β) (row col : Nat) :
    (m.scale factor).cell row col = (m.cell row col).map (scaled factor) := by
  rw [cell, cell, scale, Array.getElem?_map]
  change ((m.cells[row * m.cols + col]?).map _).join = _
  cases m.cells[row * m.cols + col]? <;> rfl

end Matrix

end ZoneSkims
