import ZoneSkims.Proofs.Scalar.Units

/-!
# Signs

Rounding keeps the sign of what it rounds, and packing keeps the sign of what it packs, whatever the
format. So sums, products, quotients and square roots of numbers that are not below zero are not
below zero either. An undefined result counts as one that is not. Otherwise, the sign is all in
which the two differences of two numbers differ.

* `unsigned_iff`, `unsigned_iff_compare`: what the sign says of the units, and of comparison.
* `abs_unpack_pack`, `abs_sub_comm`: numbers without their sign.
* `unsigned_add`, `unsigned_mul`, `unsigned_div`, `unsigned_sqrt`: the operations keep it.
-/

namespace ZoneSkims

open Float.Model (Format UnpackedFloat)
open Float.Model.UnpackedFloat

/-- The number is not below zero. -/
def Unsigned : UnpackedFloat → Prop
  | .notANumber | .zero _ => True
  | .infinity s | .finite s _ _ _ => s = .positive

/-! ## Units -/

theorem unsigned_iff {x : UnpackedFloat} (h : Canonical x) :
    Unsigned x ↔ x.isNaN = true ∨ 0 ≤ units x := by
  cases x with
  | notANumber => simp [Unsigned, UnpackedFloat.isNaN]
  | zero s => simp [Unsigned, units]
  | infinity s =>
    have hpos := topUnits_pos
    cases s with
    | negative =>
      simp only [Unsigned, units, UnpackedFloat.isNaN, Sign.apply]
      simp
      omega
    | positive =>
      simp only [Unsigned, units, UnpackedFloat.isNaN, Sign.apply]
      simp
  | finite s m e hm =>
    have hpos := magnitude_pos (e := e) hm
    cases s with
    | negative =>
      simp only [Unsigned, units, UnpackedFloat.isNaN, Sign.apply]
      simp
      omega
    | positive =>
      simp only [Unsigned, units, UnpackedFloat.isNaN, Sign.apply]
      simp

/-- Nothing else is less than zero, of either sign. -/
theorem unsigned_iff_compare {x : UnpackedFloat} (s : Sign) :
    Unsigned x ↔ x.compare (.zero s) ≠ some .lt := by
  cases x with
  | notANumber => simp [Unsigned, UnpackedFloat.compare]
  | zero t => simp [Unsigned, UnpackedFloat.compare]
  | infinity t => cases t <;> simp [Unsigned, UnpackedFloat.compare]
  | finite t m e hm => cases t <;> simp [Unsigned, UnpackedFloat.compare]

theorem unsigned_of_abs {x : UnpackedFloat} (h : x.abs = x) : Unsigned x := by
  cases x with
  | notANumber => trivial
  | zero s => trivial
  | infinity s =>
    injection h with hs
    exact hs.symm
  | finite s m e hm =>
    injection h with hs
    exact hs.symm

/-! ## Packing -/

variable {f : Format} {x y : UnpackedFloat}

theorem abs_unpack_packComponents (s : Sign) (E : BitVec f.exponentBits)
    (M : BitVec f.mantissaBitsWithoutImplicit) :
    (unpack f (packComponents f s E M)).abs = unpack f (packComponents f .positive E M) := by
  unfold unpack
  simp only [unpackMantissa_packComponents, unpackExponent_packComponents, sign_packComponents]
  split_ifs <;> rfl

/-- Taking off the sign and packing can be exchanged. -/
theorem abs_unpack_pack (x : UnpackedFloat) :
    (unpack f (pack f x)).abs = unpack f (pack f x.abs) := by
  cases x with
  | notANumber => exact abs_unpack_packComponents ..
  | infinity s => exact abs_unpack_packComponents ..
  | zero s => exact abs_unpack_packComponents ..
  | finite s m e hm =>
    simp only [pack, UnpackedFloat.abs]
    split_ifs <;> exact abs_unpack_packComponents ..

theorem unsigned_unpack_pack (h : Unsigned x) : Unsigned (unpack f (pack f x)) := by
  by_cases habs : x.abs = x
  · exact unsigned_of_abs (by rw [abs_unpack_pack, habs])
  · cases x with
    | notANumber => exact absurd rfl habs
    | zero s => rw [unpack_pack_zero]; trivial
    | infinity s => cases h; exact absurd rfl habs
    | finite s m e hm => cases h; exact absurd rfl habs

/-! ## Rounding -/

/-- Rounding treats both signs alike. -/
theorem abs_roundWithAccuracy (f : Format) (s : Sign) (m : Nat) (e : Int) (a : Accuracy) :
    (roundWithAccuracy f s m e a).abs = roundWithAccuracy f .positive m e a := by
  unfold roundWithAccuracy
  dsimp only
  split_ifs <;> rfl

theorem unsigned_roundWithAccuracy (f : Format) (m : Nat) (e : Int) (a : Accuracy) :
    Unsigned (roundWithAccuracy f .positive m e a) :=
  unsigned_of_abs (abs_roundWithAccuracy ..)

theorem abs_normalize (f : Format) {z : Int} (e : Int) (hz : 0 ≤ z) :
    (normalize f z e .positive).abs = normalize f z e .positive := by
  unfold UnpackedFloat.normalize
  rcases hz.eq_or_lt with rfl | hpos
  · rfl
  · rw [compare_gt_iff_gt.mpr hpos]
    exact abs_roundWithAccuracy ..

theorem abs_normalize_neg (z e : Int) :
    (normalize f (-z) e .positive).abs = (normalize f z e .positive).abs := by
  unfold UnpackedFloat.normalize
  rcases Int.lt_trichotomy z 0 with hz | rfl | hz
  · rw [compare_lt_iff_lt.mpr hz, compare_gt_iff_gt.mpr (Int.neg_pos.mpr hz)]
    exact (abs_roundWithAccuracy ..).trans (abs_roundWithAccuracy ..).symm
  · rfl
  · rw [compare_gt_iff_gt.mpr hz, compare_lt_iff_lt.mpr (Int.neg_neg_of_pos hz), Int.neg_neg]
    exact (abs_roundWithAccuracy ..).trans (abs_roundWithAccuracy ..).symm

/-! ## Operations -/

theorem unsigned_add (hx : Unsigned x) (hy : Unsigned y) : Unsigned (add f x y) := by
  cases x with
  | notANumber => trivial
  | infinity s =>
    cases hx
    cases y with
    | infinity t => cases hy; rfl
    | notANumber => trivial
    | zero t => rfl
    | finite t m e hm => rfl
  | zero s =>
    cases y with
    | infinity t => exact hy
    | notANumber => trivial
    | zero t => cases s <;> cases t <;> trivial
    | finite t m e hm => exact hy
  | finite s m e hm =>
    cases hx
    cases y with
    | infinity t => exact hy
    | notANumber => trivial
    | zero t => rfl
    | finite t m' e' hm' =>
      cases hy
      refine unsigned_of_abs (abs_normalize f _ ?_)
      exact Int.add_nonneg (Int.natCast_nonneg _) (Int.natCast_nonneg _)

/-- Both differences of two numbers are the same but for the sign. -/
theorem abs_sub_comm (x y : UnpackedFloat) : (sub f x y).abs = (sub f y x).abs := by
  cases x with
  | notANumber => cases y <;> rfl
  | infinity s =>
    cases y with
    | infinity t => cases s <;> cases t <;> rfl
    | notANumber => rfl
    | zero t => rfl
    | finite t m e hm => rfl
  | zero s =>
    cases y with
    | zero t => cases s <;> cases t <;> rfl
    | notANumber => rfl
    | infinity t => rfl
    | finite t m e hm => rfl
  | finite s m e hm =>
    cases y with
    | notANumber => rfl
    | infinity t => rfl
    | zero t => rfl
    | finite t m' e' hm' =>
      simp only [sub, decreaseExponent, Int.min_comm e' e]
      rw [← abs_normalize_neg, Int.neg_sub]

theorem abs_mul (x y : UnpackedFloat) : (mul f x y).abs = mul f x.abs y.abs := by
  cases x with
  | notANumber => rfl
  | infinity s => cases y <;> rfl
  | zero s => cases y <;> rfl
  | finite s m e hm =>
    cases y with
    | notANumber => rfl
    | infinity t => rfl
    | zero t => rfl
    | finite t m' e' hm' => exact abs_roundWithAccuracy ..

/-- A square is the same without the sign. -/
theorem mul_self_abs (x : UnpackedFloat) : mul f x.abs x.abs = mul f x x := by
  have hsquare (s : Sign) : s * s = .positive := by cases s <;> rfl
  cases x with
  | notANumber => rfl
  | infinity s => exact (congrArg UnpackedFloat.infinity (hsquare s)).symm
  | zero s => exact (congrArg UnpackedFloat.zero (hsquare s)).symm
  | finite s m e hm =>
    change _ = roundWithAccuracy f (s * s) (m * m) (e + e) .exact
    rw [hsquare]
    rfl

theorem unsigned_mul (hx : Unsigned x) (hy : Unsigned y) : Unsigned (mul f x y) := by
  cases x with
  | notANumber => trivial
  | zero s => cases y <;> trivial
  | infinity s =>
    cases hx
    cases y with
    | notANumber => trivial
    | zero t => trivial
    | infinity t => cases hy; rfl
    | finite t m' e' hm' => cases hy; rfl
  | finite s m e hm =>
    cases hx
    cases y with
    | notANumber => trivial
    | zero t => trivial
    | infinity t => cases hy; rfl
    | finite t m' e' hm' => cases hy; exact unsigned_roundWithAccuracy ..

/-- A quotient by zero is infinite with the sign of the zero, so that the divisor must not be
-0. -/
theorem unsigned_div (hx : Unsigned x) (hy : Unsigned y) (hzero : y ≠ .zero .negative) :
    Unsigned (div f x y) := by
  cases y with
  | notANumber => cases x <;> trivial
  | zero t =>
    cases t with
    | negative => exact absurd rfl hzero
    | positive =>
      cases x with
      | notANumber => trivial
      | zero s => trivial
      | infinity s => cases hx; rfl
      | finite s m e hm => cases hx; rfl
  | infinity t =>
    cases hy
    cases x <;> trivial
  | finite t m' e' hm' =>
    cases hy
    cases x with
    | notANumber => trivial
    | zero s => trivial
    | infinity s => cases hx; rfl
    | finite s m e hm => cases hx; exact unsigned_roundWithAccuracy ..

theorem unsigned_sqrt (x : UnpackedFloat) : Unsigned (sqrt f x) := by
  cases x with
  | notANumber => trivial
  | zero s => trivial
  | infinity s => cases s <;> trivial
  | finite s m e hm =>
    cases s with
    | negative => trivial
    | positive => exact unsigned_roundWithAccuracy ..

end ZoneSkims
