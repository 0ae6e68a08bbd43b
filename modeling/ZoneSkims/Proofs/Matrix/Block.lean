import ZoneSkims.Matrix.Block
import ZoneSkims.Proofs.Matrix.Cells
import ZoneSkims.Proofs.Matrix.Rows
import ZoneSkims.Proofs.Scalar.Laws

/-!
# Blocks hold the cells of their rows

A block that is cut from a matrix addresses the cells of its own rows and no others. Blocks of
neighbouring ranges that are put back make a whole matrix.

* `Matrix.rowBlocks_rowShares`: the blocks that a matrix is cut into.
* `Matrix.withBlocks_rowShares`: the matrix that is put together from blocks.
* `RowBlock.set_ofCells`: a stored value changes one cell of the matrix.
-/

namespace ZoneSkims

variable {ι β : Type}

namespace RowBlock

/-- The block of a range of rows in a matrix with the cells of a function. -/
def ofCells (cols : Nat) (f : Nat → Nat → Option β) (range : RowRange) : RowBlock β :=
  { firstRow := range.start, cols, cells := grid cols range.start range.length f }

/-- A block knows nothing of the rows of others. -/
theorem ofCells_congr {cols : Nat} {f g : Nat → Nat → Option β} {range : RowRange}
    (h : ∀ row ∈ range, ∀ col < cols, f row col = g row col) :
    ofCells cols f range = ofCells cols g range := by
  rw [ofCells, ofCells, grid_congr]
  intro row hfirst hlast
  exact h row ⟨hfirst, by unfold RowRange.length at hlast; omega⟩

theorem set_ofCells [Scalar β] {cols row col : Nat} {f : Nat → Nat → Option β} {range : RowRange}
    {value : β} (hvalue : Scalar.IsNumber value) (hr : row ∈ range) (hc : col < cols) :
    (ofCells cols f range).set row col value =
      .ok (ofCells cols (withCell f row col (some value)) range) := by
  have hplace : (row - range.start) * cols + col < (grid cols range.start range.length f).size := by
    rw [size_grid]
    exact place_lt (Nat.sub_lt_sub_right hr.1 hr.2) hc
  have hstore : store (grid cols range.start range.length f) ((row - range.start) * cols + col)
      (some value) =
        .ok (grid cols range.start range.length (withCell f row col (some value))) := by
    rw [store_of_lt hplace, set_grid hr.1 hc]
  have hfirst : ¬ row < range.start := Nat.not_lt.mpr hr.1
  simp only [ofCells, set, slot, hfirst, show Scalar.isNaN value = false from hvalue, if_false,
    Bool.false_eq_true]
  rw [show (Except.ok ((row - range.start) * cols + col) : Checked Nat) =
    pure ((row - range.start) * cols + col) from rfl, pure_bind, hstore]
  rfl

theorem set_of_isNaN [Scalar β] {block : RowBlock β} {row col : Nat} {value : β}
    (h : ¬ Scalar.IsNumber value) : block.set row col value = .error .undefinedCell := by
  rw [set, if_pos (by simpa [Scalar.IsNumber] using h)]

end RowBlock

namespace Matrix

open RowBlock

/-- A grid is cut into the blocks of neighbouring ranges. -/
theorem cutRows_consecutive (cols start : Nat) (lengths : List Nat) (f : Nat → Nat → Option β) :
    cutRows cols start (grid cols start lengths.sum f) (consecutive start lengths) =
      .ok ((consecutive start lengths).map (ofCells cols f)) := by
  induction lengths generalizing start with
  | nil => rfl
  | cons length lengths ih =>
    have hsplit := grid_append cols start length lengths.sum f
    have hhead : (grid cols start (length + lengths.sum) f).extract 0 (length * cols) =
        grid cols start length f := by
      rw [← hsplit, ← size_grid cols start length f, Array.extract_append_left, Array.extract_size]
    have htail : (grid cols start (length + lengths.sum) f).extract (length * cols)
        ((length + lengths.sum) * cols) = grid cols (start + length) lengths.sum f := by
      rw [← hsplit, Nat.add_mul, ← size_grid cols start length f, Array.extract_append_right,
        ← size_grid cols (start + length) lengths.sum f, Array.extract_size]
    have hle : ¬ (length + lengths.sum) * cols < length * cols := by
      rw [Nat.add_mul]
      omega
    simp only [consecutive, cutRows, List.sum_cons, RowRange.length_mk, size_grid, hle, ne_eq,
      not_true_eq_false, if_false, hhead, htail, ih, List.map_cons, ofCells]
    rfl

/-- The blocks of neighbouring ranges, one after the other, are a grid. -/
theorem foldl_blocks (cols start : Nat) (lengths : List Nat) (f : Nat → Nat → Option β)
    (front : Array (Option β)) :
    ((consecutive start lengths).map (ofCells cols f)).foldl
      (fun cells block => cells ++ block.cells) front = front ++ grid cols start lengths.sum f := by
  induction lengths generalizing start front with
  | nil => simp [consecutive, grid]
  | cons length lengths ih =>
    rw [consecutive, List.map_cons, List.foldl_cons, ih, Array.append_assoc, List.sum_cons,
      ← grid_append, ofCells, RowRange.length_mk]

/-- The shares of a matrix are its blocks. -/
theorem rowBlocks_rowShares {m : Matrix ι β} (h : m.WellFormed) (parts : Nat) :
    m.rowBlocks (rowShares m.rows parts) =
      .ok ((rowShares m.rows parts).map (ofCells m.cols m.cell)) := by
  have hcut := cutRows_consecutive m.cols 0 (shareLengths m.rows (max parts 1)) m.cell
  rw [sum_shareLengths (by omega), ← h.cells_eq] at hcut
  exact hcut

/-- The blocks of all shares make a matrix. -/
theorem withBlocks_rowShares {m : Matrix ι β} (h : m.WellFormed) (parts : Nat)
    (f : Nat → Nat → Option β) :
    m.withBlocks ((rowShares m.rows parts).map (ofCells m.cols f)) = m.withCells f := by
  have hblocks := foldl_blocks m.cols 0 (shareLengths m.rows (max parts 1)) f #[]
  rw [sum_shareLengths (by omega), Array.empty_append] at hblocks
  have hsize : m.cells.size = (grid m.cols 0 m.rows f).size := by rw [size_grid, h]
  rw [withBlocks, rowShares, hblocks, withCells, hsize]
  simp

end Matrix

end ZoneSkims
