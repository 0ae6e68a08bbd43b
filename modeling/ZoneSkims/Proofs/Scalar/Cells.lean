import ZoneSkims.Proofs.Scalar.Magnitude

/-!
# What is stored in cells

A cell holds the mean of measures, narrowed, and averages add up what several departures have
stored. None of this makes a measure negative, however many terms a mean has, and so no sum of cells
is undefined. The last law is about beelines, which are as long in the other direction.

* `LawfulCells`: the means in cells, with the proof for both precisions.
* `LawfulTotals`: the sums of cells, with the proof for single precision.
* `LawfulSquare`: squares of differences, with the proof for double precision.
-/

namespace ZoneSkims

open Float.Model (Format UnpackedFloat)
open Float.Model.UnpackedFloat

open Scalar in
/-- Scalars whose means are not negative, not even when they are narrowed to a cell. -/
class LawfulCells (α β : Type) [Scalar α] [Scalar β] [Narrowing α β] : Prop where
  not_div_ofNat_lt_zero {a : α} (n : Nat) : ¬ a < 0 → ¬ a / ofNat n < 0
  not_narrow_lt_zero {a : α} : ¬ a < 0 → ¬ (narrow a : β) < 0
  not_infinity_lt_zero : ¬ (infinity : β) < 0

open Scalar in
/-- Scalars whose measures can be added. -/
class LawfulTotals (β : Type) [Scalar β] : Prop where
  isMeasure_add {a b : β} : IsMeasure a → IsMeasure b → IsMeasure (a + b)

/-- Scalars whose differences have the same square both ways. -/
class LawfulSquare (α : Type) [Scalar α] : Prop where
  mul_self_sub_comm (a b : α) : (a - b) * (a - b) = (b - a) * (b - a)

/-! ## Double precision -/

theorem unpacked_mul (a b : Float) : unpacked (a * b) =
    unpack Format.binary64 (pack Format.binary64 (mul Format.binary64 (unpacked a) (unpacked b))) :=
  rfl

theorem float_mul_self_sub_comm (a b : Float) : (a - b) * (a - b) = (b - a) * (b - a) := by
  have habs : (unpacked (a - b)).abs = (unpacked (b - a)).abs := by
    rw [unpacked_sub, unpacked_sub, abs_unpack_pack, abs_unpack_pack, abs_sub_comm]
  refine unpacked_inj ?_
  rw [unpacked_mul, unpacked_mul, ← mul_self_abs, habs, mul_self_abs]

/-- A whole number has no sign, however large it is. -/
theorem abs_unpacked_ofNat (n : Nat) :
    (unpacked (Scalar.ofNat n)).abs = unpacked (Scalar.ofNat n) := by
  by_cases hn : n < Scalar.exactLimit
  · have hword : (unpacked n.toUInt64.toFloat).abs = unpacked n.toUInt64.toFloat := by
      have hread : unpacked n.toUInt64.toFloat = unpack Format.binary64
        (pack Format.binary64 (normalize Format.binary64 n.toUInt64.toNat 0 .positive)) := rfl
      rw [hread, abs_unpack_pack, abs_normalize _ _ (Int.natCast_nonneg _)]
    rw [ofNat_eq_mul hn, unpacked_mul, abs_unpack_pack, abs_mul, hword, unpacked_one]
    rfl
  · -- beyond the exact numbers, the number is rounded at once
    have hread : unpacked (Scalar.ofNat n) = unpack Format.binary64
        (pack Format.binary64 (ofScientific Format.binary64 n 0)) := by
      change unpacked (Float.ofScientific n false 0) = _
      unfold Float.ofScientific
      rw [dif_neg fun h => hn h.1]
      rfl
    rw [hread, abs_unpack_pack]
    congr 2
    unfold UnpackedFloat.ofScientific
    split_ifs with _ _ _ hexponent
    · rfl
    · rfl
    · rfl
    · exact abs_mul ..
    · exact absurd le_rfl hexponent

theorem float_not_div_ofNat_lt_zero {a : Float} (n : Nat) (h : ¬ a < 0) :
    ¬ a / Scalar.ofNat n < 0 := by
  have hcount := abs_unpacked_ofNat n
  have hzero : unpacked (Scalar.ofNat n) ≠ .zero .negative := by
    intro hneg
    rw [hneg] at hcount
    cases hcount
  rw [float_not_lt_zero_iff] at *
  exact unsigned_unpack_pack (unsigned_div h (unsigned_of_abs hcount) hzero)

instance : LawfulSquare Float where
  mul_self_sub_comm := float_mul_self_sub_comm

/-! ## Single precision -/

theorem single_not_lt_zero_iff {a : Float32} : ¬ a < 0 ↔ Unsigned (singleUnpacked a) := by
  have hlt : a < 0 ↔ (singleUnpacked a).compare (.zero .positive) = some .lt := by
    change (decide _ : Bool) = true ↔ _
    rw [decide_eq_true_iff]
    change ((singleUnpacked a).compare (.zero .positive) == some .lt) = true ↔ _
    rw [beq_iff_eq]
  rw [hlt, unsigned_iff_compare .positive]

theorem toSingle_not_lt_zero {a : Float} (h : ¬ a < 0) : ¬ toSingle a < 0 := by
  rw [float_not_lt_zero_iff, unpacked] at h
  rw [single_not_lt_zero_iff]
  -- the bits are packed once from the rounded number, and once from what they stand for
  refine unsigned_unpack_pack (unsigned_unpack_pack ?_)
  cases ha : unpack Format.binary64 a.toBits.toBitVec with
  | notANumber => trivial
  | infinity s => rw [ha] at h; exact h
  | zero s => trivial
  | finite s m e hm =>
    rw [ha] at h
    cases h
    exact unsigned_roundWithAccuracy ..

theorem single_isMeasure_add {a b : Float32} (ha : Scalar.IsMeasure a) (hb : Scalar.IsMeasure b) :
    Scalar.IsMeasure (a + b) := by
  have hunsigned := single_not_lt_zero_iff.mp ha.not_lt_zero
  have hunsigned' := single_not_lt_zero_iff.mp hb.not_lt_zero
  have hopposite : ¬ Scalar.Opposite a b := by
    rw [reading_single.opposite_iff]
    rintro ⟨s, hs, hs'⟩
    rw [hs] at hunsigned
    rw [hs'] at hunsigned'
    cases hunsigned
    cases hunsigned'
  refine ⟨LawfulSum.isNumber_add_iff.mpr ⟨ha.isNumber, hb.isNumber, hopposite⟩, ?_⟩
  rw [single_not_lt_zero_iff, reading_single.add]
  exact unsigned_unpack_pack (unsigned_add hunsigned hunsigned')

instance : LawfulCells Float Float32 where
  not_div_ofNat_lt_zero := float_not_div_ofNat_lt_zero
  not_narrow_lt_zero := toSingle_not_lt_zero
  not_infinity_lt_zero := single_not_lt_zero_iff.mpr rfl

instance : LawfulTotals Float32 where
  isMeasure_add := single_isMeasure_add

end ZoneSkims
