import ZoneSkims.Matrix.Block

/-!
# Filling matrices in shares

The rows of a set of matrices are divided among workers. Each worker has the blocks of its rows and
fills them one row after the other, and no cell belongs to two workers. The workers may take their
turns in any order; the first failure ends the run.

* `Pool`: a number of workers and the order of their turns.
* `fillRows`: matrices with all rows filled.
-/

namespace ZoneSkims

/-- Workers, and the order in which they take their turns. -/
structure Pool where
  workers : Nat
  turns : List Nat

namespace Pool

/-- The most workers that a pool has. -/
def largest : Nat := 65535

/-- A number of workers that take their turns in their order. -/
def ofSize (size : Nat) : Pool :=
  let workers := min size largest
  { workers, turns := List.range workers }

end Pool

/-- The cells of one row in a set of matrices: for each column the value for every matrix, or
nothing when the column is left as it is. -/
abbrev RowCells (β : Type) := List (Option (List β))

/-- The rows of one worker and their block of every matrix. -/
structure Share (β : Type) where
  rows : RowRange
  blocks : List (RowBlock β)

namespace Share

variable {β ε : Type} [Scalar β]

/-- Stores one value in each block, at the same place. -/
def setAll (row col : Nat) (blocks : List (RowBlock β)) (values : List β) :
    Checked (List (RowBlock β)) :=
  (blocks.zip values).mapM fun (block, value) => block.set row col value

/-- Stores the cells of a row. -/
def storeRow (blocks : List (RowBlock β)) (row : Nat) (cells : RowCells β) :
    Checked (List (RowBlock β)) :=
  cells.zipIdx.foldlM (fun blocks (cell, col) =>
    match cell with
    | none => .ok blocks
    | some values => setAll row col blocks values) blocks

/-- Fills the rows of a share one after the other. -/
def fill (work : Nat → Outcome ε (RowCells β)) (share : Share β) : Outcome ε (Share β) := do
  let blocks ← share.rows.rows.foldlM (fun blocks row => do
    let cells ← work row
    storeRow blocks row cells) share.blocks
  return { share with blocks }

end Share

variable {ι β ε : Type}

/-- The shares of workers in a list of matrices, one per range of rows. -/
def cutShares (matrices : List (Matrix ι β)) (ranges : List RowRange) :
    Checked (List (Share β)) := do
  let cut ← matrices.mapM fun m => List.toArray <$> m.rowBlocks ranges
  return ranges.zipIdx.map fun (rows, i) =>
    { rows, blocks := cut.filterMap fun blocks => blocks[i]? }

/-- The matrices with the blocks of all shares put back. -/
def joinShares (matrices : List (Matrix ι β)) (shares : List (Share β)) : List (Matrix ι β) :=
  matrices.zipIdx.map fun (m, k) => m.withBlocks (shares.filterMap fun share => share.blocks[k]?)

variable [Scalar β]

/-- Fills the shares in the order of the turns. -/
def fillShares (turns : List Nat) (work : Nat → Outcome ε (RowCells β))
    (shares : Array (Share β)) : Outcome ε (Array (Share β)) :=
  turns.foldlM (fun shares i =>
    match shares[i]? with
    | none => .ok shares
    | some share => do
      let filled ← share.fill work
      return shares.setIfInBounds i filled) shares

/-- Fills the rows of matrices of the same height: `work` gives the cells of each row. -/
def fillRows (pool : Pool) (matrices : List (Matrix ι β)) (work : Nat → Outcome ε (RowCells β)) :
    Outcome ε (List (Matrix ι β)) := do
  let rows := (matrices.head?.map Matrix.rows).getD 0
  let shares ← cutShares matrices (rowShares rows pool.workers)
  let filled ← fillShares pool.turns work shares.toArray
  return joinShares matrices filled.toList

end ZoneSkims
