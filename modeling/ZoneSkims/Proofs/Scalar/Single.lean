import ZoneSkims.Proofs.Scalar.Addition
import ZoneSkims.Proofs.Scalar.Laws
import ZoneSkims.Scalar.Binary

/-!
# Single precision

Matrix cells hold single precision. A number of the format that is multiplied by 1 is rounded to
the bits that it has, and so comes out as it was.

* `LawfulUnit`: the law, and its proof for single precision.
* `targetExponent_unpack`: a number of the format has the exponent that rounding would give it.
-/

namespace ZoneSkims

open Float.Model (Format UnpackedFloat totalExponent)
open Float.Model.UnpackedFloat

/-- Scalars that are not changed by a scaling with the quotient of 1 by itself. -/
class LawfulUnit (β : Type) [Scalar β] : Prop where
  mul_unit {v : β} : Scalar.IsNumber v → v * (Scalar.ofNat 1 / Scalar.ofNat 1) = v

/-- The number that a bit pattern of single precision stands for. -/
def singleUnpacked (x : Float32) : UnpackedFloat := unpack Format.binary32 x.toBits.toBitVec

/-- A number of the format has the exponent that rounding would give it. -/
theorem targetExponent_unpack {b : BitVec Format.binary32.numBits} {s : Sign} {m : Nat} {e : Int}
    {hm : 0 < m} (h : unpack Format.binary32 b = .finite s m e hm) :
    Format.binary32.targetExponent (totalExponent m e) = e := by
  have hbits : Format.binary32.mantissaBits = 24 := rfl
  have hmin : Format.binary32.minExponent = -149 := rfl
  have hbias : (Format.binary32.exponentBias : Int) = 127 := rfl
  have hfraction := (unpackMantissa b).isLt
  rw [Format.targetExponent, totalExponent, hbits, hmin]
  unfold unpack at h
  dsimp only at h
  split_ifs at h with h1 h2 h3 h4
  · -- subnormal
    injection h with _ hm' he
    have hlog : m.log2 < 23 := (Nat.log2_lt hm.ne').mpr (hm' ▸ hfraction)
    rw [h3, hbias] at he
    change ((0 : Nat) : Int) - (127 + 23) + 1 = e at he
    omega
  · -- normal
    injection h with _ hm' he
    have hmant : (1#1 ++ unpackMantissa b).toNat = 2 ^ 23 + (unpackMantissa b).toNat := by
      rw [BitVec.toNat_append, ← Nat.shiftLeft_add_eq_or_of_lt (unpackMantissa b).isLt]
      rfl
    have hlog : m.log2 = 23 := by
      rw [Nat.log2_eq_iff hm.ne', ← hm', hmant]
      omega
    have hpos : 0 < (unpackExponent b).toNat :=
      Nat.pos_of_ne_zero fun h => h3 (BitVec.eq_of_toNat_eq h)
    rw [hbias] at he
    change ((unpackExponent b).toNat : Int) - (127 + 23) = e at he
    omega

/-- Bits that are added below are rounded off again. -/
theorem roundWithAccuracy_mul_two_pow (s : Sign) {m : Nat} {e : Int} (hm : 0 < m) (k : Nat)
    (h : Format.binary32.targetExponent (totalExponent m e) = e) :
    roundWithAccuracy Format.binary32 s (m * 2 ^ k) (e - k) .exact = .finite s m e hm := by
  have htotal : totalExponent (m * 2 ^ k) (e - k) = totalExponent m e := by
    rw [totalExponent, totalExponent, log2_mul_two_pow hm]
    omega
  have hfirst : shiftToTargetExponent Format.binary32 (m * 2 ^ k) (e - k) .exact =
      (ExtendedMantissa.ofMantissaAndAccuracy (m * 2 ^ k) .exact >>> k, e) := by
    rw [shiftToTargetExponent, htotal, h, shiftToExponent]
    have hk : (e - (e - k)).toNat = k := by omega
    simp only [hk]
    rw [show e - (k : Int) + (k : Nat) = e by omega]
  have hsecond : shiftToTargetExponent Format.binary32 m e .exact =
      (ExtendedMantissa.ofMantissaAndAccuracy m .exact, e) := by
    rw [shiftToTargetExponent, h, shiftToExponent]
    have hzero : (e - e).toNat = 0 := by omega
    simp only [hzero]
    rw [show e + ((0 : Nat) : Int) = e by omega]
    rfl
  have hround : (ExtendedMantissa.ofMantissaAndAccuracy (m * 2 ^ k) .exact >>> k).roundedMantissa =
      m := nearestMultiple_mul k m
  rw [roundWithAccuracy]
  simp only [hfirst, hround, hsecond]
  exact dif_neg hm.ne'

theorem single_unit : singleUnpacked (Scalar.ofNat 1 / Scalar.ofNat 1) =
    .finite .positive (1 * 2 ^ 23) (-23) (by decide) := by
  have hbits : (Scalar.ofNat 1 / Scalar.ofNat 1 : Float32).toBits = 0x3f800000 := by
    decide +kernel
  rw [singleUnpacked, hbits]
  rfl

theorem single_mul_unit {v : Float32} (h : Scalar.IsNumber v) :
    v * (Scalar.ofNat 1 / Scalar.ofNat 1) = v := by
  have hpositive (s : Sign) : s * .positive = s := by cases s <;> rfl
  have hmul : mul Format.binary32 (singleUnpacked v)
      (singleUnpacked (Scalar.ofNat 1 / Scalar.ofNat 1)) = singleUnpacked v := by
    rw [single_unit]
    cases hv : singleUnpacked v with
    | notANumber =>
      rw [Scalar.IsNumber] at h
      change (singleUnpacked v).isNaN = false at h
      rw [hv] at h
      cases h
    | infinity s => exact congrArg UnpackedFloat.infinity (hpositive s)
    | zero s => exact congrArg UnpackedFloat.zero (hpositive s)
    | finite s m e hm =>
      change roundWithAccuracy Format.binary32 (s * .positive) (m * (1 * 2 ^ 23)) (e - 23)
        .exact = _
      rw [hpositive, Nat.one_mul]
      exact roundWithAccuracy_mul_two_pow s hm 23 (targetExponent_unpack hv)
  refine Float32.toBits_inj.mp (UInt32.toBitVec_inj.mp ?_)
  change pack Format.binary32 (mul Format.binary32 (singleUnpacked v)
    (singleUnpacked (Scalar.ofNat 1 / Scalar.ofNat 1))) = v.toBits.toBitVec
  rw [hmul]
  exact pack_unpack_of_valid v.toModel.valid

instance : LawfulUnit Float32 where
  mul_unit := single_mul_unit

end ZoneSkims
