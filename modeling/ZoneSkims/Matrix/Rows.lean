/-!
# Ranges of rows

The rows of a matrix are divided among workers: each takes one range of neighbouring rows.

* `rowShares`: ranges that cover all rows in order and differ in length by at most one.
-/

namespace ZoneSkims

/-- The rows from `start` on that are below `stop`. -/
structure RowRange where
  start : Nat
  stop : Nat
  deriving DecidableEq

namespace RowRange

/-- The number of rows. A range that ends before it starts has none. -/
def length (range : RowRange) : Nat := range.stop - range.start

/-- The rows in order. -/
def rows (range : RowRange) : List Nat := List.range' range.start range.length

instance : Membership Nat RowRange := ⟨fun range row => range.start ≤ row ∧ row < range.stop⟩

end RowRange

/-- Neighbouring ranges of the given lengths, from row `start` on. -/
def consecutive (start : Nat) : List Nat → List RowRange
  | [] => []
  | length :: lengths => ⟨start, start + length⟩ :: consecutive (start + length) lengths

/-- The lengths of `parts` shares of `rows`. The first ones take what does not divide evenly. -/
def shareLengths (rows parts : Nat) : List Nat :=
  List.replicate (rows % parts) (rows / parts + 1) ++
    List.replicate (parts - rows % parts) (rows / parts)

/-- The rows below `rows` in `parts` neighbouring ranges. There is at least one range, and ranges
are empty when there are more of them than rows. -/
def rowShares (rows parts : Nat) : List RowRange :=
  consecutive 0 (shareLengths rows (max parts 1))

end ZoneSkims
