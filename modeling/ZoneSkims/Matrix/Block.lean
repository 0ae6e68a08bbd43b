import ZoneSkims.Matrix
import ZoneSkims.Matrix.Rows

/-!
# Blocks of rows

A block is the part of a matrix that one worker fills: the cells of neighbouring rows. Rows keep
the positions that they have in the matrix.

* `Matrix.rowBlocks`: a matrix cut along a list of ranges.
* `RowBlock.get`, `RowBlock.set`: a cell of a block.
* `Matrix.withBlocks`: the matrix with the cells of the blocks put back.
-/

namespace ZoneSkims

/-- Cells of neighbouring rows of a matrix with `cols` columns. -/
structure RowBlock (β : Type) where
  firstRow : Nat
  cols : Nat
  cells : Array (Option β)

namespace RowBlock

variable {β : Type}

/-- The rows of the matrix that the block holds. A block without columns holds none. -/
def rows (block : RowBlock β) : RowRange :=
  ⟨block.firstRow, block.firstRow + block.cells.size / block.cols⟩

/-- The place of a cell in the block. -/
def slot (block : RowBlock β) (row col : Nat) : Checked Nat :=
  if row < block.firstRow then .error .outOfRange
  else .ok ((row - block.firstRow) * block.cols + col)

/-- The cell of a row of the matrix and a column. -/
def get (block : RowBlock β) (row col : Nat) : Checked (Option β) := do
  let slot ← block.slot row col
  fetch block.cells slot

/-- Stores a value, which has to be defined. -/
def set [Scalar β] (block : RowBlock β) (row col : Nat) (value : β) : Checked (RowBlock β) :=
  if Scalar.isNaN value then .error .undefinedCell
  else do
    let slot ← block.slot row col
    let cells ← store block.cells slot (some value)
    return { block with cells }

end RowBlock

namespace Matrix

variable {ι β : Type}

/-- Cuts the cells of rows from `nextRow` on. Every range starts where the one before it ends, and
the number of its cells, `range.length * cols`, fits a machine word. -/
def cutRows (cols nextRow : Nat) (rest : Array (Option β)) :
    List RowRange → Checked (List (RowBlock β))
  | [] => .ok []
  | range :: ranges =>
    if range.start ≠ nextRow then .error .rowPartition
    else
      let count := range.length * cols
      if rest.size < count then .error .outOfRange
      else do
        let blocks ← cutRows cols range.stop (rest.extract count rest.size) ranges
        return { firstRow := range.start, cols, cells := rest.extract 0 count } :: blocks

/-- The blocks of a list of ranges that follow each other from the first row on. -/
def rowBlocks (m : Matrix ι β) (ranges : List RowRange) : Checked (List (RowBlock β)) :=
  cutRows m.colIds.size 0 m.cells ranges

/-- The matrix with the cells of blocks that were cut from it. -/
def withBlocks (m : Matrix ι β) (blocks : List (RowBlock β)) : Matrix ι β :=
  let changed := blocks.foldl (fun cells block => cells ++ block.cells) #[]
  { m with cells := changed ++ m.cells.extract changed.size m.cells.size }

end Matrix

end ZoneSkims
