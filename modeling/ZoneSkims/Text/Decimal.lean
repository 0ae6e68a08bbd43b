import ZoneSkims.Scalar.Binary

/-!
# Decimal text of binary numbers

A binary number is written without an exponent and with the fewest digits that read back to it.
Of the numbers with that many digits the nearest is written, and of two equally near the larger
one. A number with a fixed count of places is its exact value, rounded half to even.

* `Rounding.ofNumber`: the interval of reals that round to a number.
* `shortestDigits`: the first decimal grid with a point in that interval.
* `shortestText`, `fixedText`: the written forms.
-/

namespace ZoneSkims

open Float.Model (Format UnpackedFloat)
open Float.Model.UnpackedFloat (Sign)

/-! ## The interval of a number -/

/-- The reals that round to a number: from `low / scale` to `high / scale` around
`exact / scale`, with the ends when `closed`. -/
structure Rounding where
  low : Nat
  exact : Nat
  high : Nat
  scale : Nat
  closed : Bool

namespace Rounding

/-- The interval of `mantissa * 2 ^ exponent`. The gap below a power of two is half the gap above
it, except at the bottom of the format. The ends round to an even mantissa. -/
def ofNumber (format : Format) (mantissa : Nat) (exponent : Int) : Rounding :=
  let power := mantissa = Nat.pow 2 (format.mantissaBits - 1) ∧ format.minExponent < exponent
  let up := Nat.pow 2 (exponent - 2).toNat
  { low := (4 * mantissa - if power then 1 else 2) * up
    exact := 4 * mantissa * up
    high := (4 * mantissa + 2) * up
    scale := Nat.pow 2 (2 - exponent).toNat
    closed := mantissa % 2 = 0 }

/-- `digits * 10 ^ exponent` lies in the interval. -/
def holds (r : Rounding) (digits : Nat) (exponent : Int) : Bool :=
  let point := digits * Nat.pow 10 exponent.toNat * r.scale
  let shift := Nat.pow 10 (-exponent).toNat
  if r.closed then decide (r.low * shift ≤ point ∧ point ≤ r.high * shift)
  else decide (r.low * shift < point ∧ point < r.high * shift)

/-- The largest point of the grid of multiples of `10 ^ exponent` that is not above the exact
value, and whether the next point is at least as near. -/
def below (r : Rounding) (exponent : Int) : Nat × Bool :=
  let numerator := r.exact * Nat.pow 10 (-exponent).toNat
  let unit := r.scale * Nat.pow 10 exponent.toNat
  (numerator / unit, decide (unit ≤ 2 * (numerator % unit)))

/-- The point of a grid that is written: of the two neighbours of the exact value the one in the
interval, or the nearer when both are, the upper on a tie. -/
def pick? (r : Rounding) (exponent : Int) : Option Nat :=
  let (digits, nearer) := r.below exponent
  match r.holds digits exponent, r.holds (digits + 1) exponent with
  | true, true => some (if nearer then digits + 1 else digits)
  | true, false => some digits
  | false, true => some (digits + 1)
  | false, false => none

/-- An exponent of ten whose power is above the exact value and at most ten times as large. -/
def topExponent (r : Rounding) : Int :=
  if r.scale ≤ r.exact then (Nat.toDigits 10 (r.exact / r.scale)).length
  else 1 - ((Nat.toDigits 10 (r.scale / r.exact)).length : Int)

end Rounding

/-! ## Digits -/

/-- The first of `grids` ever finer grids, from 10 ^ `exponent` on, with a point to write. -/
def firstPoint (r : Rounding) : (grids : Nat) → (exponent : Int) → Nat × Int
  | 0, exponent => ((r.below exponent).1, exponent)
  | grids + 1, exponent =>
    match r.pick? exponent with
    | some digits => (digits, exponent)
    | none => firstPoint r grids (exponent - 1)

/-- The fewest digits that read back to the number, and the power of ten that scales them. -/
def shortestDigits (format : Format) (mantissa : Nat) (exponent : Int) : Nat × Int :=
  let r := Rounding.ofNumber format mantissa exponent
  firstPoint r 20 (r.topExponent - 1)

/-- A whole number as digits. -/
def digitsText (n : Nat) : List Char :=
  Nat.toDigits 10 n

/-- The last `places` digits of a number, with leading zeros. -/
def fractionText (places : Nat) (n : Nat) : List Char :=
  let digits := digitsText (n % Nat.pow 10 places)
  List.replicate (places - digits.length) '0' ++ digits

/-- The same digits without zeros at the end. -/
def dropZeros (digits : List Char) : List Char :=
  (digits.reverse.dropWhile (· == '0')).reverse

/-- `digits * 10 ^ exponent` in positional notation, without a point that nothing follows. -/
def positionalText (digits : Nat) (exponent : Int) : List Char :=
  let places := (-exponent).toNat
  let whole := digits * Nat.pow 10 exponent.toNat / Nat.pow 10 places
  match dropZeros (fractionText places digits) with
  | [] => digitsText whole
  | fraction => digitsText whole ++ '.' :: fraction

/-- The quotient rounded to the nearest whole number, half to even. -/
def divNearest (numerator denominator : Nat) : Nat :=
  let whole := numerator / denominator
  let rest := 2 * (numerator % denominator)
  if denominator < rest ∨ (denominator = rest ∧ whole % 2 = 1) then whole + 1 else whole

/-! ## Written numbers -/

/-- The mark in front of a number below zero, negative zero included. -/
def signText : Sign → List Char
  | .negative => ['-']
  | .positive => []

/-- A number that is not finite has no digits. Not-a-number has no sign either. -/
def numberText (finite : (mantissa : Nat) → Int → List Char) : UnpackedFloat → List Char
  | .notANumber => ['N', 'a', 'N']
  | .infinity sign => signText sign ++ ['i', 'n', 'f']
  | .zero sign => signText sign ++ finite 0 0
  | .finite sign mantissa exponent _ => signText sign ++ finite mantissa exponent

/-- The number with the fewest digits that read back. -/
def shortestText (format : Format) (x : UnpackedFloat) : String :=
  String.ofList <| numberText
    (fun mantissa exponent =>
      if mantissa = 0 then ['0']
      else
        let (digits, power) := shortestDigits format mantissa exponent
        positionalText digits power) x

/-- The number with exactly `places` digits after the point. -/
def fixedText (places : Nat) (x : UnpackedFloat) : String :=
  String.ofList <| numberText
    (fun mantissa exponent =>
      let units := divNearest (mantissa * Nat.pow 2 exponent.toNat * Nat.pow 10 places)
        (Nat.pow 2 (-exponent).toNat)
      digitsText (units / Nat.pow 10 places) ++ '.' :: fractionText places units) x

instance : DecimalText Float where
  decimal x := shortestText Format.binary64 (UnpackedFloat.unpack Format.binary64 x.toBits.toBitVec)

instance : DecimalText Float32 where
  decimal x := shortestText Format.binary32 (UnpackedFloat.unpack Format.binary32 x.toBits.toBitVec)

/-- Scalars that can be written with one digit after the point. -/
class TenthsText (α : Type) where
  tenths : α → String

export TenthsText (tenths)

instance : TenthsText Float where
  tenths x := fixedText 1 (UnpackedFloat.unpack Format.binary64 x.toBits.toBitVec)

instance : TenthsText Float32 where
  tenths x := fixedText 1 (UnpackedFloat.unpack Format.binary32 x.toBits.toBitVec)

end ZoneSkims
