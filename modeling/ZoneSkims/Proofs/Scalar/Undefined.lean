import ZoneSkims.Proofs.Scalar.Elapsed
import ZoneSkims.Proofs.Scalar.Single

/-!
# Undefined results

Neither rounding nor packing makes a number undefined, whatever the format. So a result is undefined
only where the operation has none, and among the sums of numbers these are the ones of opposite
infinities.

* `isNaN_unpack_pack`: what is packed is undefined when it was so before, and only then.
* `LawfulSum`: only opposite infinities have no sum, with its proof for both precisions.
-/

namespace ZoneSkims

open Float.Model (Format UnpackedFloat)
open Float.Model.UnpackedFloat

namespace Scalar

/-- One is infinity and the other one its negative. -/
def Opposite {α : Type} [Scalar α] (a b : α) : Prop :=
  a = infinity ∧ b = -infinity ∨ a = -infinity ∧ b = infinity

end Scalar

open Scalar in
/-- Scalars among which only opposite infinities have no sum. -/
class LawfulSum (α : Type) [Scalar α] : Prop where
  isNumber_zero : IsNumber (0 : α)
  isNumber_add_iff {a b : α} : IsNumber (a + b) ↔ IsNumber a ∧ IsNumber b ∧ ¬ Opposite a b

/-! ## Packing -/

variable {f : Format}

theorem isNaN_unpack {b : BitVec f.numBits} :
    (unpack f b).isNaN = true ↔ unpackExponent b = -1#_ ∧ unpackMantissa b ≠ 0#_ := by
  unfold unpack
  dsimp only
  split_ifs <;> simp [UnpackedFloat.isNaN, f.he.ne', *]

theorem isNaN_unpack_packComponents {s : Sign} {E : BitVec f.exponentBits}
    {M : BitVec f.mantissaBitsWithoutImplicit} (h : E = -1#_ → M = 0#_) :
    (unpack f (packComponents f s E M)).isNaN = false := by
  rw [Bool.eq_false_iff, Ne, isNaN_unpack, unpackExponent_packComponents,
    unpackMantissa_packComponents]
  exact fun hboth => hboth.2 (h hboth.1)

/-- The exponent of all ones is kept for what is infinite or undefined. -/
theorem ofNat_ne_ones {w n : Nat} (h : n + 1 < 2 ^ w) : BitVec.ofNat w n ≠ -1#_ := by
  intro heq
  have hn := congrArg BitVec.toNat heq
  rw [BitVec.toNat_ofNat, Nat.mod_eq_of_lt (by omega), BitVec.neg_one_eq_allOnes,
    BitVec.toNat_allOnes] at hn
  omega

theorem isNaN_unpack_pack (x : UnpackedFloat) : (unpack f (pack f x)).isNaN = x.isNaN := by
  have hwidth : 1 < 2 ^ f.exponentBits := Nat.one_lt_two_pow f.he.ne'
  cases x with
  | notANumber =>
    refine isNaN_unpack.mpr ⟨unpackExponent_packComponents, ?_⟩
    rw [show unpackMantissa (pack f .notANumber) = _ from unpackMantissa_packComponents]
    intro hzero
    have hbit := congrArg (BitVec.getLsbD · (f.mantissaBitsWithoutImplicit - 1)) hzero
    have hm := f.hm
    simp [show f.mantissaBitsWithoutImplicit - 1 < f.mantissaBitsWithoutImplicit by omega] at hbit
  | infinity s => exact isNaN_unpack_packComponents fun _ => rfl
  | zero s => exact isNaN_unpack_packComponents fun _ => rfl
  | finite s m e hm =>
    unfold pack
    dsimp only
    split_ifs with hover hnormal
    · exact isNaN_unpack_packComponents fun _ => rfl
    · exact isNaN_unpack_packComponents fun hones => absurd hones (ofNat_ne_ones (by omega))
    · exact isNaN_unpack_packComponents fun hones => absurd hones (ofNat_ne_ones (by omega))

/-! ## Rounding -/

theorem isNaN_roundWithAccuracy (s : Sign) (m : Nat) (e : Int) (a : Accuracy) :
    (roundWithAccuracy f s m e a).isNaN = false := by
  unfold roundWithAccuracy
  dsimp only
  split_ifs <;> rfl

theorem isNaN_round (s : Sign) (m : Nat) (e : Int) : (UnpackedFloat.round f s m e).isNaN = false :=
  isNaN_roundWithAccuracy ..

theorem isNaN_normalize (z e : Int) (s : Sign) : (normalize f z e s).isNaN = false := by
  unfold UnpackedFloat.normalize
  split
  · exact isNaN_round ..
  · rfl
  · exact isNaN_round ..

/-! ## Sums -/

/-- A sum is undefined when a summand is, and for two infinities of different sign. -/
theorem isNaN_add (x y : UnpackedFloat) :
    (add f x y).isNaN = true ↔ x.isNaN = true ∨ y.isNaN = true ∨
      (∃ s, x = .infinity s ∧ y = .infinity (-s)) := by
  cases x with
  | notANumber => simp [add, UnpackedFloat.isNaN]
  | infinity s =>
    cases y with
    | infinity t => cases s <;> cases t <;> simp [add, UnpackedFloat.isNaN] <;> rfl
    | notANumber => simp [add, UnpackedFloat.isNaN]
    | zero t => simp [add, UnpackedFloat.isNaN]
    | finite t m e hm => simp [add, UnpackedFloat.isNaN]
  | zero s =>
    cases y with
    | zero t => cases s <;> cases t <;> simp [add, UnpackedFloat.isNaN]
    | infinity t => simp [add, UnpackedFloat.isNaN]
    | notANumber => simp [add, UnpackedFloat.isNaN]
    | finite t m e hm => simp [add, UnpackedFloat.isNaN]
  | finite s m e hm =>
    cases y with
    | finite t m' e' hm' =>
      have hsum : (add f (.finite s m e hm) (.finite t m' e' hm')).isNaN = false :=
        isNaN_normalize ..
      rw [hsum]
      simp [UnpackedFloat.isNaN]
    | infinity t => simp [add, UnpackedFloat.isNaN]
    | notANumber => simp [add, UnpackedFloat.isNaN]
    | zero t => simp [add, UnpackedFloat.isNaN]

/-! ## Both precisions -/

/-- Scalars that are numbers of a format, with what each of them stands for. -/
structure Reading {α : Type} [Scalar α] (f : Format) (read : α → UnpackedFloat) : Prop where
  injective : Function.Injective read
  isNaN (a : α) : Scalar.isNaN a = (read a).isNaN
  zero : read 0 = .zero .positive
  infinity : read Scalar.infinity = .infinity .positive
  neg_infinity : read (-Scalar.infinity) = .infinity .negative
  add (a b : α) : read (a + b) = unpack f (pack f (UnpackedFloat.add f (read a) (read b)))

namespace Reading

variable {α : Type} [Scalar α] {read : α → UnpackedFloat} (h : Reading f read)

include h

theorem isNumber_iff (a : α) : Scalar.IsNumber a ↔ ¬ (read a).isNaN = true := by
  rw [Scalar.IsNumber, h.isNaN, Bool.not_eq_true]

theorem opposite_iff (a b : α) :
    Scalar.Opposite a b ↔ ∃ s, read a = .infinity s ∧ read b = .infinity (-s) := by
  have hpos (x : α) : x = Scalar.infinity ↔ read x = .infinity .positive := by
    rw [← h.infinity, h.injective.eq_iff]
  have hneg (x : α) : x = -Scalar.infinity ↔ read x = .infinity .negative := by
    rw [← h.neg_infinity, h.injective.eq_iff]
  rw [Scalar.Opposite, hpos, hpos, hneg, hneg]
  constructor
  · rintro (hab | hab)
    · exact ⟨.positive, hab⟩
    · exact ⟨.negative, hab⟩
  · rintro ⟨s, hab⟩
    cases s with
    | positive => exact Or.inl hab
    | negative => exact Or.inr hab

theorem lawfulSum : LawfulSum α where
  isNumber_zero := by
    rw [h.isNumber_iff, h.zero]
    exact Bool.false_ne_true
  isNumber_add_iff {a b} := by
    rw [h.isNumber_iff, h.isNumber_iff, h.isNumber_iff, h.opposite_iff, h.add, isNaN_unpack_pack,
      isNaN_add, not_or, not_or]

end Reading

theorem reading_double : Reading Format.binary64 unpacked where
  injective _ _ := unpacked_inj
  isNaN _ := rfl
  zero := rfl
  infinity := rfl
  neg_infinity := rfl
  add _ _ := rfl

theorem reading_single : Reading Format.binary32 singleUnpacked where
  injective a b h := Float32.toBits_inj.mp (UInt32.toBitVec_inj.mp
    ((unpack_inj_of_valid a.toModel.valid b.toModel.valid).mp h))
  isNaN _ := rfl
  zero := rfl
  infinity := rfl
  neg_infinity := rfl
  add _ _ := rfl

instance : LawfulSum Float := reading_double.lawfulSum

instance : LawfulSum Float32 := reading_single.lawfulSum

end ZoneSkims
