/-!
# Digits

Whole numbers are read from decimal digits, the first one the most significant. Only the ten digits
of the basic alphabet count.

* `number?`: the number that digits write.
-/

namespace ZoneSkims

/-- The value of a digit. -/
def digit? (c : Char) : Option Nat :=
  if c.isDigit then some (c.toNat - '0'.toNat) else none

/-- The number that digits write in base ten. -/
def number? (digits : List Char) : Option Nat :=
  digits.foldlM (fun n c => (10 * n + ·) <$> digit? c) 0

end ZoneSkims
