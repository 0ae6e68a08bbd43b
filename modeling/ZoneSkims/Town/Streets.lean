import ZoneSkims.Road.Network

/-!
# The streets of a synthetic town

The town is a square of two kilometres with eleven streets in each direction. Every fifth street is
an arterial road. A few footpaths cut diagonally through the centre.

* `Town.streets`: the town as a network.
-/

namespace ZoneSkims.Town

variable {α : Type} [Scalar α]

/-- The number of streets in each direction. -/
def size : Nat := 11

/-- The metres between two streets. -/
def spacing : α := 200.0

def arterialSpeed : α := 50.0 / 3.6

def localSpeed : α := 30.0 / 3.6

def walkSpeed : α := 1.4

/-- The corner of two streets. -/
def corner (row col : Nat) : NodeId := Id.ofIndex (row * size + col)

/-- The rows and columns of all corners, row by row. -/
def corners : List (Nat × Nat) :=
  (List.range size).flatMap fun row => (List.range size).map fun col => (row, col)

/-- The place of a corner. -/
def cornerPosition (row col : Nat) : Coord α :=
  ⟨Scalar.ofNat col * spacing, Scalar.ofNat row * spacing⟩

/-- A block of the street with a number. Cars, walkers and cyclists use it. -/
def block (street : Nat) : LinkTraits α :=
  { LinkTraits.car spacing (if street % 5 = 0 then arterialSpeed else localSpeed) with
    modes := ModeSet.ofList [.car, .walk, .bike] }

/-- A path across a block, for walkers only. -/
def footpath : LinkTraits α :=
  { LinkTraits.car (spacing * 1.4142135623730951) walkSpeed with modes := ModeSet.single .walk }

/-- The roads in the order in which they are built. -/
def roads : List (NodeId × NodeId × LinkTraits α) :=
  (corners.flatMap fun (row, col) =>
    (if col + 1 < size then [(corner row col, corner row (col + 1), block row)] else []) ++
      (if row + 1 < size then [(corner row col, corner (row + 1) col, block col)] else [])) ++
    [3, 4, 5, 6].map fun k => (corner k k, corner (k + 1) (k + 1), footpath)

/-- The town as a network. -/
def streets : Checked (Network α) :=
  let nodes : NetworkDraft α := corners.foldl
    (fun draft (row, col) => (draft.addNode (cornerPosition row col)).2) NetworkDraft.empty
  (roads.foldl (fun draft (a, b, traits) => (draft.addRoad a b traits).2) nodes).build

end ZoneSkims.Town
