import ZoneSkims.Outcome
import ZoneSkims.Scalar

/-!
# Matrices

A matrix holds a cell for every pair of a row id and a column id. A cell that was never computed is
empty, which differs from every value: an infinite value stands for a pair that cannot be reached.
Cells are stored row by row in the order of the ids.

* `Matrix.new`: an empty matrix over two lists of ids without repetition.
* `Matrix.set`, `Matrix.add`: a cell replaced or increased.
* `Matrix.scale`, `Matrix.combine`: all computed cells scaled, or increased by another matrix.
* `Matrix.get?`: the matrix as a partial map on pairs of ids.
-/

namespace ZoneSkims

/-- The two directions of a matrix. -/
inductive Axis where
  | row
  | column
  deriving DecidableEq

def Axis.label : Axis → String
  | row => "row"
  | column => "column"

inductive MatrixError where
  /-- The id at a position is also at an earlier one. -/
  | repeatedId (axis : Axis) (index : Nat)
  | unknownId (axis : Axis)
  /-- An undefined value cannot be told from a cell that was never computed. -/
  | undefinedValue
  deriving DecidableEq

def MatrixError.message : MatrixError → String
  | repeatedId axis index => s!"duplicate {axis.label} id at position {index}"
  | unknownId axis => s!"unknown {axis.label} id"
  | undefinedValue => "NaN cannot be stored; it marks never-computed cells"

/-- Cells over pairs of ids, row by row. -/
structure Matrix (ι β : Type) where
  rowIds : Array ι
  colIds : Array ι
  cells : Array (Option β)

/-- The first position of a list whose element is in `seen` or at an earlier position. -/
def repeatAfter? {ι : Type} [DecidableEq ι] (seen : List ι) : List ι → Option Nat
  | [] => none
  | id :: ids => if id ∈ seen then some 0 else (· + 1) <$> repeatAfter? (id :: seen) ids

/-- The first position whose element is also at an earlier one. -/
def firstRepeat? {ι : Type} [DecidableEq ι] (ids : List ι) : Option Nat :=
  repeatAfter? [] ids

/-- A computed cell. A sum of two opposite infinities is undefined and leaves the cell empty. -/
def cellOf {β : Type} [Scalar β] (value : β) : Option β :=
  if Scalar.isNaN value then none else some value

/-- A cell increased by a value. An empty cell takes the value itself. -/
def increase {β : Type} [Scalar β] (cell : Option β) (value : β) : Option β :=
  match cell with
  | none => cellOf value
  | some current => cellOf (current + value)

/-- A computed value scaled by a factor. An undefined product, infinity times 0, counts as 0. -/
def scaled {β : Type} [Scalar β] (factor value : β) : β :=
  if Scalar.isNaN (value * factor) then 0 else value * factor

namespace Matrix

variable {ι β : Type} [DecidableEq ι]

/-! ## Shape -/

/-- Ids of one direction in which none is repeated. -/
def distinct (axis : Axis) (ids : Array ι) : Except MatrixError Unit :=
  match firstRepeat? ids.toList with
  | some index => .error (.repeatedId axis index)
  | none => .ok ()

/-- The matrix over two lists of ids in which no cell is computed. -/
def new (rowIds colIds : Array ι) : Except MatrixError (Matrix ι β) := do
  distinct .row rowIds
  distinct .column colIds
  return { rowIds, colIds, cells := Array.replicate (rowIds.size * colIds.size) none }

/-- The empty matrix with the same ids for rows and columns. -/
def square (ids : Array ι) : Except MatrixError (Matrix ι β) :=
  new ids ids

def rows (m : Matrix ι β) : Nat := m.rowIds.size

def cols (m : Matrix ι β) : Nat := m.colIds.size

/-- The position of a row id. -/
def rowIndex? (m : Matrix ι β) (row : ι) : Option Nat := m.rowIds.idxOf? row

/-- The position of a column id. -/
def colIndex? (m : Matrix ι β) (col : ι) : Option Nat := m.colIds.idxOf? col

/-- The position of a row id, which has to be known. -/
def rowIndex (m : Matrix ι β) (row : ι) : Except MatrixError Nat :=
  match m.rowIndex? row with
  | some r => .ok r
  | none => .error (.unknownId .row)

/-- The position of a column id, which has to be known. -/
def colIndex (m : Matrix ι β) (col : ι) : Except MatrixError Nat :=
  match m.colIndex? col with
  | some c => .ok c
  | none => .error (.unknownId .column)

/-- The place of the cell of two ids in the storage. -/
def slot (m : Matrix ι β) (row col : ι) : Except MatrixError Nat := do
  let r ← m.rowIndex row
  let c ← m.colIndex col
  return r * m.cols + c

/-! ## Cells -/

/-- The value of a cell, if both ids are known and the cell was computed. -/
def get? (m : Matrix ι β) (row col : ι) : Option β :=
  match m.slot row col with
  | .ok slot => m.cells[slot]?.join
  | .error _ => none

variable [Scalar β]

/-- The value of a cell, 0 if there is none. -/
def get (m : Matrix ι β) (row col : ι) : β :=
  (m.get? row col).getD 0

omit [DecidableEq ι] [Scalar β] in
/-- The cell that is `c` places after the start of row `r`, which may lie in a later row. -/
def cellAt (m : Matrix ι β) (r c : Nat) : Checked (Option β) :=
  fetch m.cells (r * m.colIds.size + c)

/-- Replaces the cell of two ids by what `change` makes of it. -/
def modify (m : Matrix ι β) (row col : ι) (change : Option β → Option β) :
    Except MatrixError (Matrix ι β) := do
  let slot ← m.slot row col
  return { m with cells := m.cells.modify slot change }

/-- Stores a value. -/
def set (m : Matrix ι β) (row col : ι) (value : β) : Except MatrixError (Matrix ι β) :=
  if Scalar.isNaN value then .error .undefinedValue
  else m.modify row col fun _ => some value

/-- Increases a cell by a value. -/
def add (m : Matrix ι β) (row col : ι) (value : β) : Except MatrixError (Matrix ι β) :=
  if Scalar.isNaN value then .error .undefinedValue
  else m.modify row col (increase · value)

omit [DecidableEq ι] [Scalar β] in
/-- The number of computed cells. -/
def computedCount (m : Matrix ι β) : Nat :=
  m.cells.countP Option.isSome

/-! ## Whole matrices -/

/-- Scales every computed cell. -/
def scale (m : Matrix ι β) (factor : β) : Matrix ι β :=
  { m with cells := m.cells.map (Option.map (scaled factor)) }

/-- Increases the cells at `slots` by the computed ones of `values`. -/
def increaseAt (cells : Array (Option β)) (slots : List Nat) (values : List (Option β)) :
    Array (Option β) :=
  (slots.zip values).foldl
    (fun cells (slot, value) =>
      match value with
      | some v => cells.modify slot (increase · v)
      | none => cells) cells

/-- Increases the cells of `m` by the computed cells of `other`, by id. Ids of `other` that `m`
does not know are an error, rows before columns. -/
def combine (m other : Matrix ι β) : Except MatrixError (Matrix ι β) := do
  let rows ← other.rowIds.toList.mapM m.rowIndex
  let cols ← other.colIds.toList.mapM m.colIndex
  let slots := rows.flatMap fun r => cols.map fun c => r * m.cols + c
  return { m with cells := increaseAt m.cells slots other.cells.toList }

end Matrix

end ZoneSkims
