import ZoneSkims.Coord
import ZoneSkims.Outcome

/-!
# Searches among points

Points are searched by their square distance from a place. A point may be infinitely far away, and
one with an undefined component is at no distance from any place. The box around all points is
asked first: when it is too far away, nothing in it is looked at.

* `Coord.within`: the points in a circle.
* `Coord.nearest?`: the nearest point.
* `Coord.requireOrder`: what has to hold of many points before they are searched.
-/

namespace ZoneSkims

variable {α : Type} [Scalar α]

/-! ## Boxes -/

/-- A rectangle along the axes. -/
structure Box (α : Type) where
  lower : Coord α
  upper : Coord α

namespace Box

/-- The smaller of two scalars, and the second of two that cannot be compared. -/
def lesser (a b : α) : α := if a < b then a else b

/-- The larger of two scalars, and the second of two that cannot be compared. -/
def greater (a b : α) : α := if b < a then a else b

/-- The box that reaches around one more point. An undefined component takes the place of both ends
of its axis, and the component of the point after it again. -/
def extend (box : Box α) (p : Coord α) : Box α :=
  { lower := ⟨lesser box.lower.x p.x, lesser box.lower.y p.y⟩
    upper := ⟨greater box.upper.x p.x, greater box.upper.y p.y⟩ }

/-- The box around the points of a list with at least one. -/
def around (first : Coord α) (others : List (Coord α)) : Box α :=
  others.foldl extend ⟨first, first⟩

def contains (box : Box α) (p : Coord α) : Bool :=
  decide (box.lower.x ≤ p.x) && decide (box.lower.y ≤ p.y) &&
    decide (p.x ≤ box.upper.x) && decide (p.y ≤ box.upper.y)

/-- The point of the box that is nearest to a place. An axis with undefined ends is unbounded. -/
def clamp (box : Box α) (p : Coord α) : Coord α :=
  ⟨lesser box.upper.x (greater box.lower.x p.x), lesser box.upper.y (greater box.lower.y p.y)⟩

/-- The square distance of a place from the box. -/
def squareDistance (box : Box α) (p : Coord α) : α :=
  if box.contains p then 0 else (box.clamp p).squareDistance p

end Box

namespace Coord

/-! ## Circles -/

/-- The box around some points is not too far away. It never is when they are finite and one of
them is near enough, so that it counts only for other points. -/
def boxWithin (points : List (Coord α)) (place : Coord α) (limit : α) : Bool :=
  match points with
  | [] => false
  | first :: others =>
    points.all isFinite || decide ((Box.around first others).squareDistance place ≤ limit)

/-- The points whose square distance from a place is at most `limit`, with their position and that
square distance. -/
def within (points : List (Coord α)) (place : Coord α) (limit : α) : List (Nat × α) :=
  if boxWithin points place limit then
    points.zipIdx.filterMap fun (p, i) =>
      let square := p.squareDistance place
      if square ≤ limit then some (i, square) else none
  else []

theorem boxWithin_of_finite {points : List (Coord α)} (h : points.all isFinite) (h0 : points ≠ [])
    (place : Coord α) (limit : α) : boxWithin points place limit = true := by
  unfold boxWithin
  split
  · exact absurd rfl h0
  · simp [h]

/-- Among finite points the box plays no part. -/
theorem within_of_finite {points : List (Coord α)} (h : points.all isFinite) (place : Coord α)
    (limit : α) :
    within points place limit = points.zipIdx.filterMap fun (p, i) =>
      if p.squareDistance place ≤ limit then some (i, p.squareDistance place) else none := by
  unfold within
  split
  · rfl
  · rename_i hbox
    by_cases h0 : points = []
    · simp [h0]
    · exact absurd (boxWithin_of_finite h h0 place limit) hbox

/-! ## The nearest point -/

/-- The first element with the least measure, after a best one so far. -/
def leastBy {γ : Type} (measure : γ → α) (best : γ) (xs : List γ) : γ :=
  xs.foldl (fun best x => if measure x < measure best then x else best) best

/-- The square distance of each point from a place, with its position. -/
def squaresTo (points : List (Coord α)) (place : Coord α) : List (α × Nat) :=
  points.zipIdx.map fun entry => (entry.1.squareDistance place, entry.2)

/-- The position of the first of the points at the least finite distance from a place. A single
point is the nearest at any distance. Of several without a finite distance it is the first one, and
none of their distances may be undefined then.

That the first of equally near points is taken is a choice made here: a search through a tree of
boxes meets them in an order that follows from the shape of the tree. -/
def nearest? (points : List (Coord α)) (place : Coord α) : Checked (Option Nat) :=
  let measured := squaresTo points place
  match measured.filter fun (square, _) => Scalar.isFinite square, measured with
  | near :: others, _ => .ok (some (leastBy Prod.fst near others).2)
  | [], [] => .ok none
  | [], [(_, i)] => .ok (some i)
  | [], (_, i) :: _ =>
    if measured.any fun (square, _) => Scalar.isNaN square then .error .noOrder
    else .ok (some i)

/-! ## Many points -/

/-- So many points are searched one by one. -/
def searchedOneByOne : Nat := 6

/-- More points than are searched one by one are put in order along both axes first. A point with
an undefined component has no place in such an order. -/
def requireOrder (points : List (Coord α)) : Checked Unit :=
  if decide (searchedOneByOne < points.length) && points.any isUndefined then .error .noOrder
  else .ok ()

theorem requireOrder_eq_ok_iff {points : List (Coord α)} :
    requireOrder points = .ok () ↔
      points.length ≤ searchedOneByOne ∨ ∀ p ∈ points, p.isUndefined = false := by
  by_cases few : points.length ≤ searchedOneByOne
  · simp [requireOrder, few, Nat.not_lt.mpr few]
  · simp [requireOrder, few, Nat.not_le.mp few]

end Coord

end ZoneSkims
