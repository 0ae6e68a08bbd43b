import ZoneSkims.Text.Decimal

/-!
# Coordinates

Networks, stops and sampling points lie in one plane measured in metres, so the beeline between two
of them is their Euclidean distance.

* `Coord.distance`: the beeline.
* `Coord.squareDistance`: its square, which searches compare.
-/

namespace ZoneSkims

/-- A point of the plane, in metres. -/
structure Coord (α : Type) where
  x : α
  y : α

namespace Coord

variable {α : Type} [Scalar α]

/-- Componentwise, as scalars compare: an undefined component makes points differ. -/
instance : BEq (Coord α) where
  beq a b := a.x == b.x && a.y == b.y

/-- The square of the beeline. -/
def squareDistance (a b : Coord α) : α :=
  let dx := b.x - a.x
  let dy := b.y - a.y
  dx * dx + dy * dy

/-- The beeline in metres. -/
def distance (a b : Coord α) : α :=
  Scalar.sqrt (squareDistance a b)

def isFinite (a : Coord α) : Bool :=
  Scalar.isFinite a.x && Scalar.isFinite a.y

/-- A component is undefined. -/
def isUndefined (a : Coord α) : Bool :=
  Scalar.isNaN a.x || Scalar.isNaN a.y

/-- The point as a pair with one digit after the point. -/
def text [TenthsText α] (a : Coord α) : String :=
  s!"({tenths a.x}, {tenths a.y})"

end Coord

end ZoneSkims
