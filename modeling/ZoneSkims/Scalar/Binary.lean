import ZoneSkims.Scalar

/-!
# Binary scalars

Calculations run in double precision and matrix cells hold single precision. Narrowing is computed
on the unpacked number, by one rounding to the nearest with ties to even.

* `orderKey`, `singleOrderKey`: the place of a number in the total order of its format.
* `toSingle`: the nearest single-precision number.
-/

namespace ZoneSkims

/-- The sign bit of double precision. -/
def signBit : UInt64 := 0x8000000000000000

/-- The sign bit of single precision. -/
def singleSignBit : UInt32 := 0x80000000

/-- The place of a number in the total order. Patterns without the sign bit ascend above all
others, and patterns with it descend. -/
def orderKey (x : Float) : UInt64 :=
  if x.toBits < signBit then x.toBits + signBit else ~~~x.toBits

/-- The place of a single-precision number in the total order. -/
def singleOrderKey (x : Float32) : UInt32 :=
  if x.toBits < singleSignBit then x.toBits + singleSignBit else ~~~x.toBits

instance : Scalar Float where
  decLt := inferInstance
  decLe := inferInstance
  ofNat := Float.ofNat
  truncate x := x.toUInt64.toNat
  sqrt := Float.sqrt
  abs := Float.abs
  infinity := 1 / 0
  isNaN := Float.isNaN
  isFinite := Float.isFinite
  order a b := compare (orderKey a) (orderKey b)

instance : Scalar Float32 where
  decLt := inferInstance
  decLe := inferInstance
  ofNat := Float32.ofNat
  truncate x := x.toUInt64.toNat
  sqrt := Float32.sqrt
  abs := Float32.abs
  infinity := 1 / 0
  isNaN := Float32.isNaN
  isFinite := Float32.isFinite
  order a b := compare (singleOrderKey a) (singleOrderKey b)

open Float.Model (Format UnpackedFloat) in
/-- The single-precision number nearest to `x`, ties to even. Too large a number becomes
infinite. -/
def toSingle (x : Float) : Float32 :=
  let nearest := match UnpackedFloat.unpack Format.binary64 x.toBits.toBitVec with
    | .finite sign mantissa exponent _ => UnpackedFloat.round Format.binary32 sign mantissa exponent
    | special => special
  Float32.ofBits ⟨UnpackedFloat.pack Format.binary32 nearest⟩

instance : Narrowing Float Float32 where
  narrow := toSingle

end ZoneSkims
