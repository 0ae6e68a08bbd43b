import ZoneSkims.Proofs.Scalar.Undefined

/-!
# Sums that are not rounded

A number of single precision is told by its units, except that zero has two signs. So sums of three
numbers that are not rounded agree whichever two are added first: they have the same units, and a sum
is -0 when all its terms are, and only then.

* `AddsExactly`: the sum of two finite numbers is not rounded.
* `single_eq_of_units`: a finite number is told by its units and the sign of zero.
* `single_add_comm`, `AddsExactly.add_assoc`: the order of sums.
-/

namespace ZoneSkims

open Float.Model (Format UnpackedFloat totalExponent)
open Float.Model.UnpackedFloat

/-- A number of single precision in units. -/
def singleUnits (x : Float32) : Int := units (singleUnpacked x)

/-- The sum of two finite numbers is finite and is not rounded. -/
structure AddsExactly (a b : Float32) : Prop where
  isFinite_left : Scalar.isFinite a = true
  isFinite_right : Scalar.isFinite b = true
  isFinite : Scalar.isFinite (a + b) = true
  units_eq : singleUnits (a + b) = singleUnits a + singleUnits b

instance (a b : Float32) : Decidable (AddsExactly a b) :=
  decidable_of_iff (Scalar.isFinite a = true ∧ Scalar.isFinite b = true ∧
    Scalar.isFinite (a + b) = true ∧ singleUnits (a + b) = singleUnits a + singleUnits b)
    ⟨fun ⟨ha, hb, hab, h⟩ => ⟨ha, hb, hab, h⟩, fun ⟨ha, hb, hab, h⟩ => ⟨ha, hb, hab, h⟩⟩

theorem single_isFinite (x : Float32) : Scalar.isFinite x = (singleUnpacked x).isFinite := rfl

theorem single_isNumber_of_isFinite {x : Float32} (h : Scalar.isFinite x = true) :
    Scalar.IsNumber x := by
  rw [single_isFinite] at h
  rw [reading_single.isNumber_iff]
  cases hx : singleUnpacked x with
  | notANumber => rw [hx] at h; cases h
  | infinity s => exact Bool.false_ne_true
  | zero s => exact Bool.false_ne_true
  | finite s m e hm => exact Bool.false_ne_true

theorem single_add_comm (a b : Float32) : a + b = b + a := by
  refine reading_single.injective ?_
  rw [reading_single.add, reading_single.add, unpackedFloat_add_comm]

/-! ## Numbers by their units -/

theorem units_ne_zero {s : Sign} {m : Nat} {e : Int} {hm : 0 < m} :
    units (.finite s m e hm) ≠ 0 := by
  have := magnitude_pos (e := e) hm
  cases s <;> simp only [units, Sign.apply] <;> omega

/-- The exponent of a number of the format is told by its magnitude. -/
theorem exponent_eq_of_magnitude {m m' : Nat} {e e' : Int} (hm : 0 < m) (hm' : 0 < m')
    (he : Format.binary32.targetExponent (totalExponent m e) = e)
    (he' : Format.binary32.targetExponent (totalExponent m' e') = e')
    (h : m * 2 ^ (e + 1074).toNat = m' * 2 ^ (e' + 1074).toNat) : e = e' := by
  have hbits : Format.binary32.mantissaBits = 24 := rfl
  have hmin : Format.binary32.minExponent = -149 := rfl
  have hlog := congrArg Nat.log2 h
  rw [log2_mul_two_pow hm, log2_mul_two_pow hm'] at hlog
  rw [Format.targetExponent, totalExponent, hbits, hmin] at he he'
  omega

/-- A finite number is told by its units and, if it is zero, by its sign. -/
theorem single_eq_of_units {a b : Float32} (ha : Scalar.isFinite a = true)
    (hb : Scalar.isFinite b = true) (h : singleUnits a = singleUnits b)
    (hzero : singleUnpacked a = .zero .negative ↔ singleUnpacked b = .zero .negative) : a = b := by
  refine reading_single.injective ?_
  rw [single_isFinite] at ha hb
  rw [singleUnits, singleUnits] at h
  cases hx : singleUnpacked a with
  | notANumber => rw [hx] at ha; cases ha
  | infinity s => rw [hx] at ha; cases ha
  | zero s =>
    cases hy : singleUnpacked b with
    | notANumber => rw [hy] at hb; cases hb
    | infinity t => rw [hy] at hb; cases hb
    | zero t =>
      rw [hx, hy] at hzero
      cases s <;> cases t <;> simp at hzero ⊢
    | finite t m e hm =>
      rw [hx, hy] at h
      exact absurd h.symm units_ne_zero
  | finite s m e hm =>
    cases hy : singleUnpacked b with
    | notANumber => rw [hy] at hb; cases hb
    | infinity t => rw [hy] at hb; cases hb
    | zero t =>
      rw [hx, hy] at h
      exact absurd h units_ne_zero
    | finite t m' e' hm' =>
      have he := targetExponent_unpack hx
      have he' := targetExponent_unpack hy
      rw [hx, hy] at h
      have hpos := magnitude_pos (e := e) hm
      have hpos' := magnitude_pos (e := e') hm'
      obtain ⟨rfl, hmagnitude⟩ : s = t ∧ m * 2 ^ (e + 1074).toNat = m' * 2 ^ (e' + 1074).toNat := by
        cases s <;> cases t <;> simp only [units, Sign.apply] at h <;>
          first | exact ⟨rfl, by omega⟩ | omega
      obtain rfl := exponent_eq_of_magnitude hm hm' he he' hmagnitude
      obtain rfl := Nat.eq_of_mul_eq_mul_right (by positivity) hmagnitude
      rfl

/-! ## Sums -/

/-- Terms that cancel have the sum 0. -/
theorem add_eq_zero {f : Format} {s t : Sign} {m m' : Nat} {e e' : Int} {hm : 0 < m} {hm' : 0 < m'}
    (he : -1074 ≤ e) (he' : -1074 ≤ e')
    (h : units (.finite s m e hm) + units (.finite t m' e' hm') = 0) :
    add f (.finite s m e hm) (.finite t m' e' hm') = .zero .positive := by
  have hmin : -1074 ≤ min e e' := by omega
  rw [units_decrease s hm hmin (min_le_left e e'),
    units_decrease t hm' hmin (min_le_right e e'), ← Int.add_mul] at h
  have hsum := (mul_eq_zero.mp h).resolve_right (by positivity)
  unfold add
  dsimp only
  rw [hsum]
  rfl

/-- The exponents of the format are not below the one of a unit. -/
theorem exponent_ge_of_single {x : Float32} {s : Sign} {m : Nat} {e : Int} {hm : 0 < m}
    (h : singleUnpacked x = .finite s m e hm) : -1074 ≤ e := by
  have hmin : Format.binary32.minExponent = -149 := rfl
  have he := targetExponent_unpack h
  rw [Format.targetExponent, hmin] at he
  omega

namespace AddsExactly

variable {a b c : Float32}

/-- A sum that is not rounded is -0 when both terms are, and only then. -/
theorem eq_neg_zero_iff (h : AddsExactly a b) : singleUnpacked (a + b) = .zero .negative ↔
    singleUnpacked a = .zero .negative ∧ singleUnpacked b = .zero .negative := by
  obtain ⟨ha, hb, -, hunits⟩ := h
  have hadd := reading_single.add a b
  rw [single_isFinite] at ha hb
  rw [singleUnits, singleUnits, singleUnits] at hunits
  cases hx : singleUnpacked a with
  | notANumber => rw [hx] at ha; cases ha
  | infinity s => rw [hx] at ha; cases ha
  | zero s =>
    cases hy : singleUnpacked b with
    | notANumber => rw [hy] at hb; cases hb
    | infinity t => rw [hy] at hb; cases hb
    | zero t =>
      rw [hadd, hx, hy]
      cases s <;> cases t <;> simp [add, unpack_pack_zero]
    | finite t m e hm =>
      refine ⟨fun hsum => ?_, fun hboth => by cases hboth.2⟩
      rw [hsum, hx, hy, show units (.zero s) = 0 from rfl, Int.zero_add] at hunits
      exact absurd hunits.symm units_ne_zero
  | finite s m e hm =>
    refine ⟨fun hsum => ?_, fun hboth => by cases hboth.1⟩
    rw [hsum, hx] at hunits
    cases hy : singleUnpacked b with
    | notANumber => rw [hy] at hb; cases hb
    | infinity t => rw [hy] at hb; cases hb
    | zero t =>
      rw [hy, show units (.zero t) = 0 from rfl, Int.add_zero] at hunits
      exact absurd hunits.symm units_ne_zero
    | finite t m' e' hm' =>
      rw [hy] at hunits
      rw [hx, hy, add_eq_zero (exponent_ge_of_single hx) (exponent_ge_of_single hy) hunits.symm,
        unpack_pack_zero, hsum] at hadd
      cases hadd

/-- Sums that are not rounded do not depend on which terms are added first. -/
theorem add_assoc (hab : AddsExactly a b) (hab' : AddsExactly (a + b) c) (hbc : AddsExactly b c)
    (hbc' : AddsExactly a (b + c)) : a + b + c = a + (b + c) := by
  refine single_eq_of_units hab'.isFinite hbc'.isFinite ?_ ?_
  · rw [hab'.units_eq, hab.units_eq, hbc'.units_eq, hbc.units_eq, Int.add_assoc]
  · rw [hab'.eq_neg_zero_iff, hab.eq_neg_zero_iff, hbc'.eq_neg_zero_iff, hbc.eq_neg_zero_iff,
      and_assoc]

end AddsExactly

end ZoneSkims
