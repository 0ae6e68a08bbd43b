import ZoneSkims.Proofs.Scalar.Elapsed
import ZoneSkims.Proofs.Scalar.Exact

/-!
# The signs of differences

A difference is below 0 only when its minuend is below its subtrahend. Rounding cannot turn the sign
around, and where there is nothing to subtract, the difference is undefined and below nothing.

* `unsigned_sub`: differences of double precision.
* `LawfulSign`: the laws, with their proof for double precision and for exact arithmetic.
-/

namespace ZoneSkims

open Float.Model (Format UnpackedFloat)
open Float.Model.UnpackedFloat

/-- Scalars whose differences have the right sign, and whose negative zero is not above 0. -/
class LawfulSign (α : Type) [Scalar α] : Prop where
  lt_of_sub_lt_zero {a b : α} : a - b < 0 → a < b
  not_zero_lt_neg_zero : ¬ (0 : α) < -0

/-! ## Double precision -/

/-- The difference of two numbers is not below zero when they are in order. -/
theorem unsigned_sub {x y : UnpackedFloat} (hx : Canonical x) (hy : Canonical y)
    (hle : units y ≤ units x) : Unsigned (sub Format.binary64 x y) := by
  have htop := topUnits_pos
  cases y with
  | notANumber => cases x <;> trivial
  | infinity t =>
    cases t with
    | negative =>
      cases x with
      | infinity s => cases s <;> trivial
      | notANumber => trivial
      | zero s => rfl
      | finite s m e hm => rfl
    | positive =>
      cases x with
      | infinity s =>
        cases s with
        | positive => trivial
        | negative => simp only [units, Sign.apply] at hle; omega
      | notANumber => trivial
      | zero s => simp only [units, Sign.apply] at hle; omega
      | finite s m e hm =>
        have hlt := magnitude_lt_top hx.1 hx.2
        cases s <;> simp only [units, Sign.apply] at hle <;> omega
  | zero t =>
    by_cases hzero : x = .zero .negative ∧ UnpackedFloat.zero t = .zero .positive
    · obtain ⟨rfl, -⟩ := hzero
      cases t <;> trivial
    · exact unsigned_of_abs (abs_sub_unpacked hx hy rfl hle hzero)
  | finite t m e hm =>
    refine unsigned_of_abs (abs_sub_unpacked hx hy rfl hle ?_)
    rintro ⟨-, hpos⟩
    cases hpos

theorem sub_of_isNaN {x y : UnpackedFloat} (h : x.isNaN = true ∨ y.isNaN = true) :
    sub Format.binary64 x y = .notANumber := by
  rcases h with h | h
  · cases x with
    | notANumber => rfl
    | infinity s => cases h
    | zero s => cases h
    | finite s m e hm => cases h
  · cases y with
    | notANumber => cases x <;> rfl
    | infinity s => cases h
    | zero s => cases h
    | finite s m e hm => cases h

theorem float_lt_of_sub_lt_zero {a b : Float} (h : a - b < 0) : a < b := by
  by_contra hnot
  refine float_not_lt_zero_iff.mpr ?_ h
  rw [unpacked_sub]
  refine unsigned_unpack_pack ?_
  by_cases hnan : (unpacked a).isNaN = true ∨ (unpacked b).isNaN = true
  · rw [sub_of_isNaN hnan]
    trivial
  · rw [not_or, Bool.not_eq_true, Bool.not_eq_true] at hnan
    refine unsigned_sub (canonical_unpacked a) (canonical_unpacked b) ?_
    exact not_lt.mp fun hlt => hnot (float_lt_iff.mpr ⟨hnan.1, hnan.2, hlt⟩)

instance : LawfulSign Float where
  lt_of_sub_lt_zero := float_lt_of_sub_lt_zero
  not_zero_lt_neg_zero := by decide +kernel

/-! ## Exact arithmetic -/

namespace Exact

variable {K : Type} [Field K] [LinearOrder K] [IsStrictOrderedRing K]

theorem lt_of_sub_lt_zero {a b : Exact K} (h : a - b < 0) : a < b := by
  cases a with
  | finite x =>
    cases b with
    | finite y =>
      rw [finite_sub] at h
      have hneg : x - y < 0 := not_le.mp fun hle => finite_not_lt_zero.mpr hle h
      exact ⟨decide_eq_false (not_le.mpr (sub_neg.mp hneg)), decide_eq_true (sub_neg.mp hneg).le⟩
    | undefined => cases h.2
    | below => cases h.2
    | above => exact ⟨rfl, rfl⟩
  | undefined => cases b <;> cases h.2
  | below =>
    cases b with
    | finite y => exact ⟨rfl, rfl⟩
    | undefined => cases h.2
    | below => cases h.2
    | above => exact ⟨rfl, rfl⟩
  | above => cases b <;> cases h.2

instance : LawfulSign (Exact K) where
  lt_of_sub_lt_zero := lt_of_sub_lt_zero
  not_zero_lt_neg_zero := by
    have hneg : -(0 : Exact K) = 0 := congrArg finite neg_zero
    rw [hneg]
    exact Scalar.lt_irrefl 0

end Exact

end ZoneSkims
