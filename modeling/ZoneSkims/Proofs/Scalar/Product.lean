import ZoneSkims.Proofs.Scalar.Quotient

/-!
# Products, roots and sums with zero

A product of finite numbers is rounded from the exact one, so it ascends with its factors, and a
factor of at most 1 makes no number greater. What is defined stays defined when it is scaled by a
positive number, and a measure has a root.

* `unitsOf_mul`: the units of a product.
* `unitsOf_mul_le`, `unitsOf_mul_le_left`: products ascend with their factors.
* `LawfulLength`: the laws for roots that are scaled, with their proof for double precision.
* `LawfulNeutral`: the law of sums with 0, with its proof for double precision.
-/

namespace ZoneSkims

open Float.Model (Format UnpackedFloat)
open Float.Model.UnpackedFloat

open Scalar in
/-- Scalars that can be scaled, and with roots. -/
class LawfulLength (α : Type) [Scalar α] : Prop where
  isNumber_mul {a b : α} : IsNumber a → isFinite b = true → 0 < b → IsNumber (a * b)
  isNumber_sqrt {a : α} : IsMeasure a → IsNumber (sqrt a)

open Scalar in
/-- Scalars that 0 adds nothing to. -/
class LawfulNeutral (α : Type) [Scalar α] : Prop where
  add_zero_le {a : α} : isFinite a = true → a + 0 ≤ a

/-! ## Undefined results -/

section

variable {f : Format} {x y : UnpackedFloat}

/-- A product with a finite number other than 0 is defined. -/
theorem isNaN_mul (hx : x.isNaN = false) (hy : y.isFinite = true) (hzero : ∀ s, y ≠ .zero s) :
    (mul f x y).isNaN = false := by
  cases y with
  | notANumber => cases hy
  | infinity t => cases hy
  | zero t => exact absurd rfl (hzero t)
  | finite t m' e' hm' =>
    cases x with
    | notANumber => cases hx
    | infinity s => rfl
    | zero s => rfl
    | finite s m e hm => exact isNaN_roundWithAccuracy ..

theorem isNaN_sqrt (hx : x.isNaN = false) (h : Unsigned x) : (sqrt f x).isNaN = false := by
  cases x with
  | notANumber => cases hx
  | zero s => rfl
  | infinity s =>
    obtain rfl : s = .positive := h
    rfl
  | finite s m e hm =>
    obtain rfl : s = .positive := h
    exact isNaN_roundWithAccuracy ..

end

instance : LawfulLength Float where
  isNumber_mul ha hb hpos :=
    (isNaN_unpack_pack _).trans (isNaN_mul ha hb (ne_zero_of_pos hpos))
  isNumber_sqrt h := by
    obtain ⟨hnan, hsign⟩ := float_isMeasure_iff.mp h
    exact (isNaN_unpack_pack _).trans (isNaN_sqrt hnan hsign)

instance : LawfulNeutral Float where
  add_zero_le := by
    intro a ha
    obtain ⟨hnumber, hunits⟩ := unitsOf_add ha LawfulScalar.isFinite_zero
    refine float_le_iff.mpr ⟨hnumber, float_isNumber_of_isFinite ha, ?_⟩
    rw [hunits, unitsOf_zero, Int.add_zero, unitsOf,
      roundInt_units (canonical_unpacked a) ha]

/-! ## Units of products -/

section

variable {a b c d : Float}

theorem unitsOf_mul (ha : Scalar.isFinite a = true) (hb : Scalar.isFinite b = true)
    (ha0 : 0 ≤ unitsOf a) (hb0 : 0 ≤ unitsOf b) : Scalar.IsNumber (a * b) ∧ unitsOf (a * b) =
      (min (roundFraction 52 (unitsOf a * unitsOf b / 2 ^ oneExponent)) topUnits : Nat) :=
  hasUnits_mul (canonical_unpacked a) (canonical_unpacked b) ha hb ha0 hb0

/-- Products of finite numbers keep the order. -/
theorem unitsOf_mul_le (ha : Scalar.isFinite a = true) (hb : Scalar.isFinite b = true)
    (hc : Scalar.isFinite c = true) (hd : Scalar.isFinite d = true) (ha0 : 0 ≤ unitsOf a)
    (hb0 : 0 ≤ unitsOf b) (hc0 : 0 ≤ unitsOf c) (hd0 : 0 ≤ unitsOf d)
    (h : unitsOf a * unitsOf b ≤ unitsOf c * unitsOf d) : unitsOf (a * b) ≤ unitsOf (c * d) := by
  rw [(unitsOf_mul ha hb ha0 hb0).2, (unitsOf_mul hc hd hc0 hd0).2]
  have hexact : (unitsOf a * unitsOf b / 2 ^ oneExponent : ℚ) ≤
      unitsOf c * unitsOf d / 2 ^ oneExponent := by
    apply div_le_div_of_nonneg_right _ (by positivity)
    exact_mod_cast h
  have hround := roundFraction_mono (p := 52) (by positivity) hexact
  omega

/-- A factor of at most 1 gives no greater product. -/
theorem unitsOf_mul_le_left (ha : Scalar.isFinite a = true) (hb : Scalar.isFinite b = true)
    (ha0 : 0 ≤ unitsOf a) (hb0 : 0 ≤ unitsOf b) (h : unitsOf b ≤ 2 ^ oneExponent) :
    unitsOf (a * b) ≤ unitsOf a := by
  rw [(unitsOf_mul ha hb ha0 hb0).2]
  obtain ⟨n, hn⟩ := Int.eq_ofNat_of_zero_le ha0
  have hsame : (min (roundFraction 52 n) topUnits : Nat) = unitsOf a := by
    have hround := roundInt_units (canonical_unpacked a) ha
    rw [← unitsOf, hn, roundInt_natCast] at hround
    rw [hn, roundFraction_natCast]
    exact hround
  have hexact : (unitsOf a * unitsOf b / 2 ^ oneExponent : ℚ) ≤ n := by
    rw [div_le_iff₀ (by positivity), hn, Int.cast_natCast]
    gcongr
    exact_mod_cast h
  have hround := roundFraction_mono (p := 52) (by positivity) hexact
  omega

end

theorem unitsOf_toFloat {word : UInt64} (h : word.toNat < Scalar.exactLimit) :
    Scalar.isFinite word.toFloat = true ∧
      unitsOf word.toFloat = (word.toNat * 2 ^ oneExponent : Nat) := by
  rcases Nat.eq_zero_or_pos word.toNat with hzero | hpos
  · obtain rfl : word = 0 := UInt64.toNat_inj.mp hzero
    rw [UInt64.toNat_zero, Nat.zero_mul]
    exact ⟨rfl, rfl⟩
  · obtain ⟨m, e, hm, hread, -, hunits⟩ := isWhole_toFloat hpos h
    rw [Nat.toUInt64, UInt64.ofNat_toNat] at hread
    rw [float_isFinite, unitsOf, hread, units, Sign.apply, hunits]
    exact ⟨rfl, rfl⟩

end ZoneSkims
