import ZoneSkims.Proofs.Scalar.Double

/-!
# Time that has passed

Who only adds what is not negative never comes to an earlier time of day, not even to one that is
earlier in the total order alone. So the difference to a later time has no sign that would have to
be taken off it. In double precision this needs some care: the difference is -0 when 0 is taken
from -0, which are equal and not in that order.

* `LawfulClock`: the laws, and their proof for double precision.
-/

namespace ZoneSkims

open Float.Model (Format UnpackedFloat)
open Float.Model.UnpackedFloat

open Scalar in
/-- Scalars that can serve as times of day. -/
class LawfulClock (α : Type) [Scalar α] : Prop where
  orderedLe_add {a c : α} : IsNumber a → isFinite c = true → ¬ c < 0 → orderedLe a (a + c) = true
  abs_sub {a b : α} : IsNumber a → isFinite b = true → orderedLe b a = true → abs (a - b) = a - b

/-! ## Magnitudes -/

/-- What has no sign to take off is its own magnitude. -/
theorem float_abs_of_unpacked {x : Float} (h : (unpacked x).abs = unpacked x) :
    Scalar.abs x = x := by
  refine Float.toBits_inj.mp (UInt64.toBitVec_inj.mp ?_)
  change pack Format.binary64 (unpacked x).abs = x.toBits.toBitVec
  rw [h]
  exact pack_unpack_of_valid x.toModel.valid

/-- The difference of two numbers in order is its own magnitude. -/
theorem abs_sub_unpacked {x y : UnpackedFloat} (hx : Canonical x) (hy : Canonical y)
    (hfin : y.isFinite = true) (hle : units y ≤ units x)
    (hzero : ¬ (x = .zero .negative ∧ y = .zero .positive)) :
    (sub Format.binary64 x y).abs = sub Format.binary64 x y := by
  have htop := topUnits_pos
  cases y with
  | infinity t => cases hfin
  | notANumber => cases hfin
  | zero t =>
    cases x with
    | notANumber => rfl
    | infinity s =>
      cases s with
      | positive => rfl
      | negative => simp only [units, Sign.apply] at hle; omega
    | zero s => cases s <;> cases t <;> first | rfl | exact absurd ⟨rfl, rfl⟩ hzero
    | finite s m e hm =>
      have hpos := magnitude_pos (e := e) hm
      cases s with
      | positive => rfl
      | negative => simp only [units, Sign.apply] at hle; omega
  | finite t m' e' hm' =>
    have hpos' := magnitude_pos (e := e') hm'
    have hlt' := magnitude_lt_top hy.1 hy.2
    cases x with
    | notANumber => rfl
    | infinity s =>
      cases s with
      | positive => rfl
      | negative => cases t <;> simp only [units, Sign.apply] at hle <;> omega
    | zero s =>
      cases t with
      | negative => rfl
      | positive => simp only [units, Sign.apply] at hle; omega
    | finite s m e hm =>
      have he := hx.1.exponent_ge
      have he' := hy.1.exponent_ge
      have hmin : -1074 ≤ min e e' := by omega
      refine abs_normalize _ _ ?_
      rw [units_decrease s hm hmin (min_le_left e e'),
        units_decrease t hm' hmin (min_le_right e e')] at hle
      exact Int.sub_nonneg_of_le (Int.le_of_mul_le_mul_right hle (by positivity))

theorem unitsOf_le_of_orderedLe {a b : Float} (h : Scalar.orderedLe b a = true)
    (hb : Scalar.IsNumber b) (ha : Scalar.IsNumber a) : unitsOf b ≤ unitsOf a := by
  by_contra hlt
  exact LawfulScalar.not_lt_of_orderedLe h (float_lt_iff.mpr ⟨ha, hb, not_le.mp hlt⟩)

/-- A number is known by what it stands for. -/
theorem unpacked_inj {a b : Float} (h : unpacked a = unpacked b) : a = b :=
  Float.toBits_inj.mp (UInt64.toBitVec_inj.mp
    ((unpack_inj_of_valid a.toModel.valid b.toModel.valid).mp h))

theorem unpacked_neg_zero : unpacked (-0) = .zero .negative := by
  rfl

theorem unpacked_sub (a b : Float) :
    unpacked (a - b) = unpack Format.binary64
      (pack Format.binary64 (sub Format.binary64 (unpacked a) (unpacked b))) := rfl

theorem float_abs_sub {a b : Float} (ha : Scalar.IsNumber a) (hb : Scalar.isFinite b = true)
    (h : Scalar.orderedLe b a = true) : Scalar.abs (a - b) = a - b := by
  have hle := unitsOf_le_of_orderedLe h (float_isNumber_of_isFinite hb) ha
  refine float_abs_of_unpacked ?_
  rw [unpacked_sub, abs_unpack_pack,
    abs_sub_unpacked (canonical_unpacked a) (canonical_unpacked b) hb hle]
  rintro ⟨hneg, hpos⟩
  obtain rfl : a = -0 := unpacked_inj (hneg.trans unpacked_neg_zero.symm)
  obtain rfl : b = 0 := unpacked_inj (hpos.trans unpacked_zero.symm)
  revert h
  decide +kernel

/-! ## Sums -/

/-- A sum with 0 is never -0. -/
theorem zero_add_ne {c : Float} (hc : Scalar.isFinite c = true) :
    unpacked (0 + c) ≠ .zero .negative := by
  have hcanonical := canonical_unpacked c
  rw [float_isFinite] at hc
  rw [unpacked_add, unpacked_zero]
  generalize unpacked c = y at hc hcanonical
  cases y with
  | infinity t => cases hc
  | notANumber => cases hc
  | zero t => cases t <;> exact (unpack_pack_zero .positive).trans_ne nofun
  | finite t m e hm => exact (unpack_pack_of_canonical hcanonical).trans_ne nofun

theorem float_orderedLe_add {a c : Float} (ha : Scalar.IsNumber a) (hc : Scalar.isFinite c = true)
    (h : ¬ c < 0) : Scalar.orderedLe a (a + c) = true := by
  have hsum := float_isNumber_add ha hc
  have hle := float_le_add hsum h
  by_cases hlt : a < a + c
  · exact float_orderedLe_iff.mpr (UInt64.lt_iff_toNat_lt.mp (orderKey_lt hlt)).le
  have heq : unitsOf a = unitsOf (a + c) := by
    have := (float_le_iff.mp hle).2.2
    have : ¬ unitsOf a < unitsOf (a + c) := fun h => hlt (float_lt_iff.mpr ⟨ha, hsum, h⟩)
    omega
  have hbeq : (a == a + c) = true := by
    change ((unpacked a).compare (unpacked (a + c)) == some .eq) = true
    rw [compare_eq (canonical_unpacked a) (canonical_unpacked _) ha hsum]
    change (some (compare (unitsOf a) (unitsOf (a + c))) == some .eq) = true
    rw [heq, compare_eq_iff_eq.mpr rfl]
    rfl
  obtain ⟨-, -, hsame | ⟨rfl, hneg⟩ | ⟨rfl, hpos⟩⟩ := Float.beq_iff_ne_nan_and_eq.mp hbeq
  · rw [← hsame]
    exact float_orderedLe_iff.mpr le_rfl
  · exact absurd ((congrArg unpacked hneg).trans unpacked_neg_zero) (zero_add_ne hc)
  · rw [hpos]
    decide +kernel

instance : LawfulClock Float where
  orderedLe_add := float_orderedLe_add
  abs_sub := float_abs_sub

end ZoneSkims
