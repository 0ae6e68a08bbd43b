/-!
# Scalars

Times, distances and costs are scalars. Every calculation of this library is written once, over any
type with the operations below, so that it runs in binary floating point and can be reasoned about
in exact arithmetic.

The order of operations is part of each definition: a floating-point sum depends on it.

* `Scalar`: arithmetic, comparison and the special values.
* `Scalar.max`: the larger of two scalars, where an undefined one gives way.
* `Scalar.ceilNat`: the least whole number that is not smaller, within the machine word.
* `Narrowing`: the passage from the scalars of a calculation to those of a matrix cell.
-/

namespace ZoneSkims

/-- The largest machine word. Counts that are cut from a scalar end there. -/
def wordMax : Nat := 0xFFFFFFFFFFFFFFFF

/-- Numbers that quantities are measured in. -/
class Scalar (α : Type) extends Zero α, Add α, Sub α, Mul α, Div α, Neg α, LT α, LE α, BEq α,
    OfScientific α where
  decLt : DecidableLT α
  decLe : DecidableLE α
  /-- The scalar nearest to a whole number. -/
  ofNat : Nat → α
  /-- The whole part. Negative and undefined scalars give 0, and `wordMax` is the limit. -/
  truncate : α → Nat
  sqrt : α → α
  abs : α → α
  infinity : α
  isNaN : α → Bool
  isFinite : α → Bool
  /-- A total order that refines `<`, puts -0 below 0, and has a place for undefined values. -/
  order : α → α → Ordering

namespace Scalar

variable {α : Type} [Scalar α]

instance : DecidableLT α := Scalar.decLt

instance : DecidableLE α := Scalar.decLe

instance : Inhabited α := ⟨0⟩

/-- The larger of two scalars. An undefined one gives way to the other. -/
def max (a b : α) : α :=
  if isNaN a then b else if a < b then b else a

/-- The least whole number that is not smaller than `a`, at most `wordMax`. -/
def ceilNat (a : α) : Nat :=
  let whole := truncate a
  if ofNat whole < a then min (whole + 1) wordMax else whole

/-- The sum of a list from its first element on. The empty sum is -0, which is neutral for
every scalar, 0 and -0 included. -/
def sum (xs : List α) : α :=
  xs.foldl (· + ·) (-0)

/-- Finite and above 0. -/
def isPositive (a : α) : Bool :=
  isFinite a && decide (0 < a)

/-- Finite and not below 0. -/
def isNonnegative (a : α) : Bool :=
  isFinite a && decide (0 ≤ a)

/-- `a` comes before `b` or beside it in the total order. -/
def orderedLe (a b : α) : Bool :=
  (order a b).isLE

end Scalar

/-- The passage from one kind of scalar to a coarser one, rounding to the nearest. -/
class Narrowing (α β : Type) where
  narrow : α → β

export Narrowing (narrow)

/-- Scalars that can be written in decimal, with the fewest digits that read back. -/
class DecimalText (α : Type) where
  decimal : α → String

export DecimalText (decimal)

end ZoneSkims
