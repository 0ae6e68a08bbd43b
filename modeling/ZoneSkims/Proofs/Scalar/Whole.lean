import Mathlib.Data.Rat.Floor
import ZoneSkims.Proofs.Scalar.Quotient

/-!
# Scalars as numbers

The number that a finite scalar of double precision stands for is its units, as a fraction of those
in 1. Whole numbers below the limit stand for themselves, and the whole part of a scalar is the
floor of its number.

* `valueOf`, `StandsFor`: the number.
* `standsFor_ofNat`: whole numbers.
* `truncate_eq_floor`, `valueOf_abs`: whole parts and magnitudes.
-/

namespace ZoneSkims

open Float.Model (Format UnpackedFloat)
open Float.Model.UnpackedFloat

/-- The number that a finite scalar stands for. -/
def valueOf (x : Float) : ℚ := unitsOf x / 2 ^ oneExponent

/-- The scalar is finite, and its number is `q` without any rounding. -/
structure StandsFor (x : Float) (q : ℚ) : Prop where
  isFinite : Scalar.isFinite x = true
  value : valueOf x = q

/-! ## Whole numbers -/

theorem valueOf_ofNat {n : Nat} (h : n < Scalar.exactLimit) : valueOf (Scalar.ofNat n) = n := by
  rw [valueOf, unitsOf_ofNat h]
  push_cast
  field_simp

theorem standsFor_ofNat {n : Nat} (h : n < Scalar.exactLimit) :
    StandsFor (Scalar.ofNat n) n := by
  refine ⟨?_, valueOf_ofNat h⟩
  rcases Nat.eq_zero_or_pos n with rfl | hn
  · rw [float_isFinite, unpacked_ofNat_zero]
    rfl
  · exact (Scalar.isPositive_iff.mp (float_isPositive_ofNat hn h)).1

/-! ## Whole parts -/

variable {x : Float}

theorem floor_valueOf (x : Float) : ⌊valueOf x⌋₊ = (unitsOf x).toNat / 2 ^ oneExponent := by
  have hcast : valueOf x = unitsOf x / (2 ^ oneExponent : Nat) := by
    rw [valueOf]
    push_cast
    rfl
  rw [hcast, Nat.floor_div_natCast, ← Int.floor_toNat, Int.floor_intCast]

theorem truncate_eq_floor (h : Scalar.IsNumber x) :
    Scalar.truncate x = min ⌊valueOf x⌋₊ wordMax := by
  rw [floor_valueOf, truncate_eq h]

/-! ## Magnitudes -/

theorem valueOf_nonneg_iff : 0 ≤ valueOf x ↔ 0 ≤ unitsOf x := by
  rw [valueOf, le_div_iff₀ (by positivity), zero_mul, Int.cast_nonneg_iff]

theorem not_lt_zero_of_valueOf (h : 0 ≤ valueOf x) : ¬ x < 0 := by
  intro hlt
  have hneg := (float_lt_iff.mp hlt).2.2
  rw [unitsOf_zero] at hneg
  exact Int.not_le.mpr hneg (valueOf_nonneg_iff.mp h)

theorem canonical_abs {y : UnpackedFloat} (h : Canonical y) : Canonical y.abs := by
  cases y <;> exact h

theorem units_abs (y : UnpackedFloat) : units y.abs = |units y| := by
  cases y with
  | notANumber => rfl
  | infinity s => cases s <;> simp [UnpackedFloat.abs, units, Sign.apply]
  | zero s => rfl
  | finite s m e hm => cases s <;> simp [UnpackedFloat.abs, units, Sign.apply]

theorem unpacked_abs (x : Float) : unpacked (Scalar.abs x) = (unpacked x).abs :=
  unpack_pack_of_canonical (canonical_abs (canonical_unpacked x))

theorem valueOf_abs (x : Float) : valueOf (Scalar.abs x) = |valueOf x| := by
  rw [valueOf, valueOf, unitsOf, unpacked_abs, units_abs, Int.cast_abs, abs_div,
    abs_of_pos (a := (2 : ℚ) ^ oneExponent) (by positivity)]
  rfl

end ZoneSkims
