import ZoneSkims.Proofs.Scalar.Undefined

/-!
# Magnitudes and means

Lengths, durations and square distances are numbers that are not below 0, infinity included. Among
them every sum is defined, and so is every mean, as long as the number of terms is exact.

* `Scalar.IsMeasure`: numbers that are not below 0.
* `LawfulMeasure`: how measures come about, with its proof for double precision.
* `LawfulNarrowing`: narrowing keeps numbers, with its proof for both precisions.
-/

namespace ZoneSkims

open Float.Model (Format UnpackedFloat)
open Float.Model.UnpackedFloat

/-! ## The laws -/

namespace Scalar

/-- Up to this number, whole numbers are exact. -/
def exactLimit : Nat := 2 ^ 53

/-- The scalar is a number and not below 0, perhaps infinite. -/
structure IsMeasure {α : Type} [Scalar α] (a : α) : Prop where
  isNumber : IsNumber a
  not_lt_zero : ¬ a < 0

end Scalar

open Scalar in
/-- Scalars whose magnitudes and squares are measures, and whose numbers can be divided. -/
class LawfulMeasure (α : Type) [Scalar α] : Prop where
  isNumber_sub {a b : α} : isFinite a = true → IsNumber b → IsNumber (a - b)
  isMeasure_abs {a : α} : IsNumber a → IsMeasure (abs a)
  isMeasure_mul_self {a : α} : IsNumber a → IsMeasure (a * a)
  isNumber_div {a b : α} : IsNumber a → isFinite b = true → 0 < b → IsNumber (a / b)
  isPositive_ofNat {n : Nat} : 0 < n → n < exactLimit → isPositive (ofNat n : α) = true

open Scalar in
/-- Scalars that can be narrowed without becoming undefined. -/
class LawfulNarrowing (α β : Type) [Scalar α] [Scalar β] [Narrowing α β] : Prop where
  isNumber_infinity : IsNumber (infinity : β)
  isNumber_narrow {a : α} : IsNumber a → IsNumber (narrow a : β)

namespace Scalar

variable {α : Type} [Scalar α] [LawfulScalar α] {a b : α}

theorem isMeasure_zero : IsMeasure (0 : α) :=
  ⟨isNumber_of_isFinite LawfulScalar.isFinite_zero, Scalar.lt_irrefl 0⟩

theorem IsMeasure.zero_le (h : IsMeasure a) : 0 ≤ a :=
  Scalar.le_of_not_lt h.isNumber isMeasure_zero.isNumber h.not_lt_zero

/-- Infinity alone has an opposite among the numbers, and that is below 0. -/
theorem IsMeasure.not_opposite (ha : IsMeasure a) (hb : IsMeasure b) : ¬ Opposite a b := by
  have hlt : -infinity < (0 : α) := (LawfulScalar.isFinite_iff.mp LawfulScalar.isFinite_zero).1
  rintro (⟨-, rfl⟩ | ⟨rfl, -⟩)
  · exact hb.not_lt_zero hlt
  · exact ha.not_lt_zero hlt

theorem IsMeasure.add [LawfulSum α] (ha : IsMeasure a) (hb : IsMeasure b) : IsMeasure (a + b) := by
  have hnumber : IsNumber (a + b) :=
    LawfulSum.isNumber_add_iff.mpr ⟨ha.isNumber, hb.isNumber, ha.not_opposite hb⟩
  exact ⟨hnumber, Scalar.not_lt_of_le
    (Scalar.le_trans ha.zero_le (LawfulScalar.le_add hnumber hb.not_lt_zero))⟩

theorem IsMeasure.foldl_add [LawfulSum α] {xs : List α} (h : ∀ x ∈ xs, IsMeasure x) :
    ∀ {total : α}, IsMeasure total → IsMeasure (xs.foldl (· + ·) total) := by
  induction xs with
  | nil => exact fun htotal => htotal
  | cons x xs ih =>
    exact fun htotal => ih (fun y hy => h y (List.mem_cons_of_mem x hy))
      (htotal.add (h x List.mem_cons_self))

end Scalar

/-! ## Undefined results -/

variable {f : Format} {x y : UnpackedFloat}

theorem isNaN_abs (x : UnpackedFloat) : x.abs.isNaN = x.isNaN := by
  cases x <;> rfl

/-- A difference is defined when one of two numbers is finite. -/
theorem isNaN_sub_of_isFinite (hx : x.isFinite = true) (hy : y.isNaN = false) :
    (sub f x y).isNaN = false := by
  cases x with
  | notANumber => cases hx
  | infinity s => cases hx
  | zero s =>
    cases y with
    | notANumber => cases hy
    | infinity t => rfl
    | zero t => cases s <;> cases t <;> rfl
    | finite t m e hm => rfl
  | finite s m e hm =>
    cases y with
    | notANumber => cases hy
    | infinity t => rfl
    | zero t => rfl
    | finite t m' e' hm' => exact isNaN_normalize ..

theorem isNaN_mul_self (h : x.isNaN = false) : (mul f x x).isNaN = false := by
  cases x with
  | notANumber => cases h
  | infinity s => rfl
  | zero s => rfl
  | finite s m e hm => exact isNaN_roundWithAccuracy ..

theorem unsigned_abs (x : UnpackedFloat) : Unsigned x.abs := by
  cases x <;> trivial

theorem unsigned_mul_self (x : UnpackedFloat) : Unsigned (mul f x x) := by
  rw [← mul_self_abs]
  exact unsigned_mul (unsigned_abs x) (unsigned_abs x)

/-- A quotient by a finite number other than 0 is defined. -/
theorem isNaN_div (hx : x.isNaN = false) (hy : y.isFinite = true) (hzero : ∀ s, y ≠ .zero s) :
    (div f x y).isNaN = false := by
  cases y with
  | notANumber => cases hy
  | infinity t => cases hy
  | zero t => exact absurd rfl (hzero t)
  | finite t m' e' hm' =>
    cases x with
    | notANumber => cases hx
    | infinity s => rfl
    | zero s => rfl
    | finite s m e hm => exact isNaN_roundWithAccuracy ..

theorem float_isMeasure_iff {a : Float} :
    Scalar.IsMeasure a ↔ (unpacked a).isNaN = false ∧ Unsigned (unpacked a) :=
  ⟨fun h => ⟨h.isNumber, float_not_lt_zero_iff.mp h.not_lt_zero⟩,
    fun h => ⟨h.1, float_not_lt_zero_iff.mpr h.2⟩⟩

/-- What is packed without a sign, and defined, is a measure. -/
theorem float_isMeasure_of_unpacked {a : Float} {x : UnpackedFloat}
    (ha : unpacked a = unpack Format.binary64 (pack Format.binary64 x)) (hnan : x.isNaN = false)
    (hsign : Unsigned x) : Scalar.IsMeasure a := by
  rw [float_isMeasure_iff, ha, isNaN_unpack_pack]
  exact ⟨hnan, unsigned_unpack_pack hsign⟩

/-! ## Whole numbers -/

theorem unpacked_one :
    unpacked (Float.ofBits 0x3FF0000000000000) = .finite .positive (2 ^ 52) (-52) (by decide) := by
  rfl

/-- Below the limit, a whole number is its conversion times 1. -/
theorem ofNat_eq_mul {n : Nat} (h : n < Scalar.exactLimit) :
    (Scalar.ofNat n : Float) = n.toUInt64.toFloat * Float.ofBits 0x3FF0000000000000 := by
  change Float.ofScientific n false 0 = _
  unfold Float.ofScientific
  rw [dif_pos ⟨h, by decide⟩]
  rfl

/-- The exponent of the units in 1. -/
@[irreducible] def oneExponent : Nat := 1074

theorem oneExponent_eq : oneExponent = 1074 := by
  unfold oneExponent
  rfl

/-- The number is positive, and whole with this value. -/
def IsWhole (n : Nat) (x : UnpackedFloat) : Prop :=
  ∃ m e hm, x = .finite .positive m e hm ∧ Normal m e ∧
    m * 2 ^ (e + 1074).toNat = n * 2 ^ oneExponent

/-- The exponent of a whole number below the limit is far from both ends. -/
theorem exponent_bounds {m n k : Nat} (hm : m < 2 ^ 53) (hn : 0 < n) (hlimit : n < 2 ^ 53)
    (h : m * 2 ^ k = n * 2 ^ oneExponent) : 1022 ≤ k ∧ k < 1127 := by
  have hone := oneExponent_eq
  have hpos : 0 < m * 2 ^ k := h ▸ Nat.mul_pos hn (Nat.two_pow_pos _)
  constructor
  · have hlt : 2 ^ oneExponent < 2 ^ (53 + k) := by
      calc 2 ^ oneExponent ≤ n * 2 ^ oneExponent := Nat.le_mul_of_pos_left _ hn
        _ = m * 2 ^ k := h.symm
        _ < 2 ^ 53 * 2 ^ k := Nat.mul_lt_mul_of_pos_right hm (Nat.two_pow_pos k)
        _ = 2 ^ (53 + k) := (pow_add 2 53 k).symm
    have := (Nat.pow_lt_pow_iff_right Nat.one_lt_two).mp hlt
    omega
  · have hlt : 2 ^ k < 2 ^ (53 + oneExponent) := by
      calc 2 ^ k ≤ m * 2 ^ k := Nat.le_mul_of_pos_left _ (Nat.pos_of_mul_pos_right hpos)
        _ = n * 2 ^ oneExponent := h
        _ < 2 ^ 53 * 2 ^ oneExponent := Nat.mul_lt_mul_of_pos_right hlimit (Nat.two_pow_pos _)
        _ = 2 ^ (53 + oneExponent) := (pow_add 2 53 oneExponent).symm
    have := (Nat.pow_lt_pow_iff_right Nat.one_lt_two).mp hlt
    omega

/-- A whole number below the limit is rounded and packed without loss. -/
theorem isWhole_of_roundsTo {n j m : Nat} {x : UnpackedFloat} (hn : 0 < n)
    (hlimit : n < Scalar.exactLimit) (hm : m < 2 ^ 53) (hvalue : m * 2 ^ j = n * 2 ^ oneExponent)
    (h : RoundsTo .positive (m * 2 ^ j) x) :
    IsWhole n (unpack Format.binary64 (pack Format.binary64 x)) := by
  obtain ⟨m', e, hm', rfl, hnormal, hunits⟩ := h
  rw [roundUnits_mul hm, hvalue] at hunits
  have hbounds := exponent_bounds hnormal.lt_top hn hlimit hunits
  rw [unpack_pack_finite hm' hnormal, if_pos (by omega)]
  exact ⟨m', e, hm', rfl, hnormal, hunits⟩

theorem isWhole_toFloat {n : Nat} (hn : 0 < n) (hlimit : n < Scalar.exactLimit) :
    IsWhole n (unpacked n.toUInt64.toFloat) := by
  have hbound : n < 2 ^ 53 := hlimit
  have hword : n.toUInt64.toNat = n := UInt64.toNat_ofNat_of_lt (hbound.trans (by decide))
  have hread : unpacked n.toUInt64.toFloat = unpack Format.binary64
      (pack Format.binary64 (normalize Format.binary64 n 0 .positive)) := by
    conv_rhs => rw [← hword]
    rfl
  have hround : normalize Format.binary64 n 0 .positive = round Format.binary64 .positive n 0 := by
    unfold UnpackedFloat.normalize
    rw [compare_gt_iff_gt.mpr (Int.natCast_pos.mpr hn)]
    rfl
  rw [hread, hround]
  have hvalue : n * 2 ^ ((0 : Int) + 1074).toNat = n * 2 ^ oneExponent := by
    rw [oneExponent_eq, Int.zero_add, show (1074 : Int).toNat = 1074 from rfl]
  exact isWhole_of_roundsTo hn hlimit hbound hvalue (roundsTo_round .positive hn (by decide))

theorem isWhole_ofNat {n : Nat} (hn : 0 < n) (hlimit : n < Scalar.exactLimit) :
    IsWhole n (unpacked (Scalar.ofNat n : Float)) := by
  obtain ⟨m, e, hm, hread, hnormal, hunits⟩ := isWhole_toFloat hn hlimit
  have hbounds := exponent_bounds hnormal.lt_top hn hlimit hunits
  obtain ⟨j, hj⟩ : ∃ j : Nat, (e + 1074).toNat = j + 52 := ⟨(e + 1074).toNat - 52, by omega⟩
  have hexponent : e + -52 = -1074 + j := by omega
  have hvalue : m * 2 ^ 52 * 2 ^ j = n * 2 ^ oneExponent := by
    rw [← hunits, hj, Nat.mul_assoc, ← pow_add, Nat.add_comm 52 j]
  rw [ofNat_eq_mul hlimit]
  change IsWhole n (unpack Format.binary64 (pack Format.binary64
    (mul Format.binary64 (unpacked n.toUInt64.toFloat) (unpacked (Float.ofBits _)))))
  rw [hread, unpacked_one]
  change IsWhole n (unpack Format.binary64 (pack Format.binary64
    (roundWithAccuracy Format.binary64 .positive (m * 2 ^ 52) (e + -52) .exact)))
  rw [hexponent]
  have hrounds : RoundsTo .positive (m * 2 ^ 52 * 2 ^ j)
      (roundWithAccuracy Format.binary64 .positive (m * 2 ^ 52) (-1074 + j) .exact) := by
    refine roundsTo_roundWithAccuracy .positive (by positivity) ?_
    rw [log2_mul_two_pow hm]
    omega
  rw [Nat.mul_assoc, ← pow_add] at hrounds hvalue
  exact isWhole_of_roundsTo hn hlimit hnormal.lt_top hvalue hrounds

theorem unpacked_ofNat_zero : unpacked (Scalar.ofNat 0) = .zero .positive := by
  rfl

/-- A whole number below the limit has its units. -/
theorem unitsOf_ofNat {n : Nat} (hlimit : n < Scalar.exactLimit) :
    unitsOf (Scalar.ofNat n) = (n * 2 ^ oneExponent : Nat) := by
  rcases Nat.eq_zero_or_pos n with rfl | hn
  · rw [Nat.zero_mul, unitsOf, unpacked_ofNat_zero]
    rfl
  · obtain ⟨m, e, hm, hread, -, hvalue⟩ := isWhole_ofNat hn hlimit
    rw [unitsOf, hread, ← hvalue]
    rfl

theorem float_isPositive_ofNat {n : Nat} (hn : 0 < n) (hlimit : n < Scalar.exactLimit) :
    Scalar.isPositive (Scalar.ofNat n : Float) = true := by
  obtain ⟨m, e, hm, hread, -⟩ := isWhole_ofNat hn hlimit
  have hfinite : Scalar.isFinite (Scalar.ofNat n : Float) = true := by
    rw [float_isFinite, hread]
    rfl
  have hpos : (0 : Float) < Scalar.ofNat n := by
    refine float_lt_iff.mpr ⟨rfl, float_isNumber_of_isFinite hfinite, ?_⟩
    rw [unitsOf, unitsOf, unpacked_zero, hread]
    exact Int.natCast_pos.mpr (magnitude_pos hm)
  rw [Scalar.isPositive, hfinite, decide_eq_true hpos]
  rfl

/-! ## The proofs of the laws -/

instance : LawfulMeasure Float where
  isNumber_sub := by
    intro a b ha hb
    refine (isNaN_unpack_pack _).trans (isNaN_sub_of_isFinite ha hb)
  isMeasure_abs ha :=
    float_isMeasure_of_unpacked rfl ((isNaN_abs _).trans ha) (unsigned_abs _)
  isMeasure_mul_self ha :=
    float_isMeasure_of_unpacked rfl (isNaN_mul_self ha) (unsigned_mul_self _)
  isNumber_div := by
    intro a b ha hb hpos
    exact (isNaN_unpack_pack _).trans (isNaN_div ha hb (ne_zero_of_pos hpos))
  isPositive_ofNat := float_isPositive_ofNat

/-- Bits that were packed stand for what was packed, as far as it is defined. -/
theorem isNaN_ofBits_pack (x : UnpackedFloat) :
    Scalar.isNaN (Float32.ofBits ⟨pack Format.binary32 x⟩) = x.isNaN := by
  have hread : singleUnpacked (Float32.ofBits ⟨pack Format.binary32 x⟩) = unpack Format.binary32
      (pack Format.binary32 (unpack Format.binary32 (pack Format.binary32 x))) := rfl
  rw [reading_single.isNaN, hread, isNaN_unpack_pack, isNaN_unpack_pack]

/-- Rounding to single precision keeps numbers. -/
theorem isNumber_toSingle {a : Float} (h : Scalar.IsNumber a) : Scalar.IsNumber (toSingle a) := by
  rw [Scalar.IsNumber, float_isNaN, unpacked] at h
  rw [Scalar.IsNumber, toSingle, isNaN_ofBits_pack]
  cases ha : unpack Format.binary64 a.toBits.toBitVec with
  | notANumber => rw [ha] at h; cases h
  | infinity s => rfl
  | zero s => rfl
  | finite s m e hm => exact isNaN_round ..

instance : LawfulNarrowing Float Float32 where
  isNumber_infinity := rfl
  isNumber_narrow := isNumber_toSingle

end ZoneSkims
