import ZoneSkims.Proofs.Scalar.Fraction

/-!
# Whole parts of quotients

A time belongs to the bin that the whole part of a quotient numbers. The whole part is that of the
units, as far as it fits a machine word, and so it ascends with the dividend. What is negative or
undefined has none, and neither has a quotient by infinity.

* `truncate_eq`: the whole part of a number.
* `unitsOf_div_mono`: quotients ascend with the dividend.
* `LawfulQuotient`: the laws, with their proof for double precision.
-/

namespace ZoneSkims

open Float.Model (Format UnpackedFloat)
open Float.Model.UnpackedFloat

open Scalar in
/-- Scalars whose quotients by a positive one have ascending whole parts. -/
class LawfulQuotient (α : Type) [Scalar α] : Prop where
  truncate_div_le {a b c : α} : 0 < c → a ≤ b → truncate (a / c) ≤ truncate (b / c)
  truncate_zero_div {c : α} : 0 < c → truncate (0 / c) = 0

/-! ## Whole parts -/

theorem mantissa_shiftRight (em : ExtendedMantissa) (k : Nat) :
    (em >>> k).mantissa = em.mantissa / 2 ^ k := by
  change (k.repeat ExtendedMantissa.shiftRightOne em).mantissa = _
  induction k with
  | zero => simp [Nat.repeat]
  | succ k ih => rw [Nat.repeat, ExtendedMantissa.shiftRightOne, ih, Nat.div_div_eq_div_mul, pow_succ]

theorem roundToInt_eq (s : Sign) (m j : Nat) :
    roundToInt s m (-1074 + j) = s.apply (m * 2 ^ j / 2 ^ oneExponent : Nat) := by
  have hone := oneExponent_eq
  -- `i` bits are added below, and then `d` bits cut off
  obtain ⟨i, hi⟩ : ∃ i, i = j - oneExponent := ⟨_, rfl⟩
  obtain ⟨d, hd⟩ : ∃ d, d = oneExponent - j := ⟨_, rfl⟩
  have hadd : (-1074 + (j : Int) - 0).toNat = i := by omega
  have hcut : (0 - (-1074 + (j : Int) - i)).toNat = d := by omega
  have hvalue : m * 2 ^ i / 2 ^ d = m * 2 ^ j / 2 ^ oneExponent := by
    rw [show j = i + (j - i) by omega, show oneExponent = d + (j - i) by omega, pow_add, pow_add,
      ← Nat.mul_assoc, Nat.mul_div_mul_right _ _ (by positivity)]
  simp only [roundToInt, decreaseExponent, shiftToExponent, hadd, hcut, mantissa_shiftRight,
    Nat.shiftLeft_eq]
  exact congrArg (fun n : Nat => s.apply n) hvalue

theorem wordMax_lt_topUnits : wordMax < topUnits / 2 ^ oneExponent := by
  have hone := oneExponent_eq
  have htop := topExponent_eq
  have hle : 2 ^ 64 ≤ topUnits / 2 ^ oneExponent := by
    rw [Nat.le_div_iff_mul_le (by positivity), topUnits_eq, ← pow_add, ← pow_add]
    exact Nat.pow_le_pow_right (by decide) (by omega)
  exact lt_of_lt_of_le (by decide) hle

theorem toNat_ofNatClamp (n : Nat) : (UInt64.ofNatClamp n).toNat = min n wordMax := by
  have hsize : UInt64.size = wordMax + 1 := rfl
  unfold UInt64.ofNatClamp
  split_ifs with h
  · rw [UInt64.toNat_ofNatLT]
    omega
  · rw [UInt64.toNat_ofNatLT]
    omega

/-- The whole part of a number, as far as it fits a machine word. -/
theorem truncate_eq {x : Float} (h : Scalar.IsNumber x) :
    Scalar.truncate x = min ((unitsOf x).toNat / 2 ^ oneExponent) wordMax := by
  have hcanonical := canonical_unpacked x
  have hclamp : Scalar.truncate x = min ((unpacked x).toInt 0 wordMax).toNat wordMax :=
    toNat_ofNatClamp _
  rw [Scalar.IsNumber, float_isNaN] at h
  rw [hclamp, unitsOf]
  generalize unpacked x = y at h hcanonical
  cases y with
  | notANumber => cases h
  | zero s => simp [UnpackedFloat.toInt, units]
  | infinity s =>
    cases s with
    | negative => simp [UnpackedFloat.toInt, units, Sign.apply]
    | positive =>
      have := wordMax_lt_topUnits
      simp only [UnpackedFloat.toInt, units, Sign.apply, Int.toNat_natCast]
      omega
  | finite s m e hm =>
    obtain ⟨j, rfl⟩ := hcanonical.1.exists_exponent
    rw [UnpackedFloat.toInt, roundToInt_eq, units, toNat_exponent]
    cases s with
    | negative =>
      have hneg (n : Nat) : (-(n : Int)).toNat = 0 := by omega
      rw [Sign.apply, Sign.apply, hneg, hneg, Nat.zero_div]
    | positive => rfl

theorem truncate_of_isNaN {x : Float} (h : Scalar.isNaN x = true) : Scalar.truncate x = 0 := by
  have hclamp : Scalar.truncate x = min ((unpacked x).toInt 0 wordMax).toNat wordMax :=
    toNat_ofNatClamp _
  rw [float_isNaN] at h
  rw [hclamp]
  generalize unpacked x = y at h
  cases y with
  | notANumber => rfl
  | infinity s => cases h
  | zero s => cases h
  | finite s m e hm => cases h

theorem truncate_of_nonpos {x : Float} (h : unitsOf x ≤ 0) : Scalar.truncate x = 0 := by
  cases hnan : Scalar.isNaN x with
  | true => exact truncate_of_isNaN hnan
  | false => rw [truncate_eq hnan, Int.toNat_of_nonpos h, Nat.zero_div, Nat.zero_min]

/-! ## Whole parts of quotients -/

theorem unpacked_div (a b : Float) : unpacked (a / b) =
    unpack Format.binary64 (pack Format.binary64 (div Format.binary64 (unpacked a) (unpacked b))) :=
  rfl

section

variable {a b c : Float}

theorem unitsOf_div (ha : Scalar.isFinite a = true) (hc : Scalar.isFinite c = true)
    (ha0 : 0 ≤ unitsOf a) (hc0 : 0 < unitsOf c) : Scalar.IsNumber (a / c) ∧ unitsOf (a / c) =
      (min (roundFraction 52 (unitsOf a * 2 ^ oneExponent / unitsOf c)) topUnits : Nat) :=
  hasUnits_div (canonical_unpacked a) (canonical_unpacked c) ha hc ha0 hc0

/-- A quotient by infinity is zero or undefined. -/
theorem unitsOf_div_infinity {s : Sign} (hc : unpacked c = .infinity s) : unitsOf (a / c) = 0 := by
  rw [unitsOf, unpacked_div, hc]
  cases unpacked a with
  | notANumber => exact congrArg units unpack_pack_notANumber
  | infinity t => exact congrArg units unpack_pack_notANumber
  | zero t => exact congrArg units (unpack_pack_zero (t / s))
  | finite t m e hm => exact congrArg units (unpack_pack_zero (t / s))

/-- A negative number has no positive quotient. -/
theorem unitsOf_div_nonpos (ha0 : unitsOf a < 0) (hc : Scalar.isFinite c = true)
    (hc0 : 0 < unitsOf c) : unitsOf (a / c) ≤ 0 := by
  have hcanonical := canonical_unpacked a
  rw [unitsOf] at ha0 hc0 ⊢
  rw [unpacked_div]
  rcases exists_of_units_nonneg (canonical_unpacked c) hc hc0.le with
    ⟨t, hread⟩ | ⟨m', j', hm', hread, -, -⟩
  · rw [hread] at hc0
    exact absurd hc0 (Int.lt_irrefl 0)
  rw [hread]
  generalize unpacked a = x at ha0 hcanonical
  cases x with
  | notANumber => exact absurd ha0 (Int.lt_irrefl 0)
  | zero s => exact absurd ha0 (Int.lt_irrefl 0)
  | infinity s =>
    cases s with
    | positive =>
      simp only [units, Sign.apply] at ha0
      omega
    | negative =>
      refine (congrArg units (unpack_pack_infinity .negative)).trans_le ?_
      exact Int.neg_nonpos_of_nonneg (Int.natCast_nonneg topUnits)
  | finite s m e hm =>
    have hpos := magnitude_pos (e := e) hm
    obtain ⟨j, rfl⟩ := hcanonical.1.exists_exponent
    cases s with
    | positive =>
      simp only [units, Sign.apply] at ha0
      omega
    | negative =>
      refine (roundsFraction_div hm hm' .negative .positive).hasUnits.2.trans_le ?_
      exact Int.neg_nonpos_of_nonneg (Int.natCast_nonneg _)

theorem unitsOf_infinity_div (ha : unpacked a = .infinity .positive)
    (hc : Scalar.isFinite c = true) (hc0 : 0 < unitsOf c) :
    Scalar.IsNumber (a / c) ∧ unitsOf (a / c) = topUnits := by
  rw [Scalar.IsNumber, float_isNaN, unitsOf, unpacked_div, ha]
  rcases exists_of_units_nonneg (canonical_unpacked c) hc hc0.le with
    ⟨t, hread⟩ | ⟨m', j', hm', hread, -, -⟩
  · rw [unitsOf, hread] at hc0
    exact absurd hc0 (Int.lt_irrefl 0)
  · rw [hread]
    exact ⟨congrArg UnpackedFloat.isNaN (unpack_pack_infinity .positive),
      congrArg units (unpack_pack_infinity .positive)⟩

theorem unpacked_eq_infinity (ha : Scalar.IsNumber a) (hfin : ¬ Scalar.isFinite a = true)
    (ha0 : 0 ≤ unitsOf a) : unpacked a = .infinity .positive := by
  have htop := topUnits_pos
  obtain ⟨s, hs⟩ := infinite_of_not_isFinite ha hfin
  cases s with
  | positive => exact hs
  | negative =>
    rw [unitsOf_infinite hs, Sign.apply] at ha0
    omega

/-- The quotients by a positive number ascend with the dividend, as long as it is not negative. -/
theorem unitsOf_div_mono (hc : Scalar.isFinite c = true) (hc0 : 0 < unitsOf c)
    (ha0 : 0 ≤ unitsOf a) (h : a ≤ b) :
    Scalar.IsNumber (a / c) ∧ Scalar.IsNumber (b / c) ∧ unitsOf (a / c) ≤ unitsOf (b / c) := by
  obtain ⟨ha, hb, hle⟩ := float_le_iff.mp h
  by_cases hbfin : Scalar.isFinite b = true
  · have hafin : Scalar.isFinite a = true := by
      refine (float_isFinite_iff ha).mpr ⟨?_, ?_⟩
      · have := topUnits_pos
        omega
      · have := (float_isFinite_iff hb).mp hbfin
        omega
    obtain ⟨hquotient, hunits⟩ := unitsOf_div hafin hc ha0 hc0
    obtain ⟨hquotient', hunits'⟩ := unitsOf_div hbfin hc (ha0.trans hle) hc0
    refine ⟨hquotient, hquotient', ?_⟩
    rw [hunits, hunits']
    have hcq : (0 : ℚ) < unitsOf c := by exact_mod_cast hc0
    have haq : (0 : ℚ) ≤ unitsOf a := by exact_mod_cast ha0
    have hround := roundFraction_mono (p := 52)
      (x := unitsOf a * 2 ^ oneExponent / unitsOf c) (y := unitsOf b * 2 ^ oneExponent / unitsOf c)
      (by positivity) (by
        have hleq : (unitsOf a : ℚ) ≤ unitsOf b := by exact_mod_cast hle
        gcongr)
    omega
  · obtain ⟨hquotient', hunits'⟩ :=
      unitsOf_infinity_div (unpacked_eq_infinity hb hbfin (ha0.trans hle)) hc hc0
    by_cases hafin : Scalar.isFinite a = true
    · refine ⟨(unitsOf_div hafin hc ha0 hc0).1, hquotient', ?_⟩
      rw [hunits']
      exact (units_bounds _).2
    · obtain ⟨hquotient, hunits⟩ :=
        unitsOf_infinity_div (unpacked_eq_infinity ha hafin ha0) hc hc0
      exact ⟨hquotient, hquotient', hunits.trans_le hunits'.ge⟩

/-- The whole part of a quotient ascends with the dividend. -/
theorem float_truncate_div_le (hc : 0 < c) (h : a ≤ b) :
    Scalar.truncate (a / c) ≤ Scalar.truncate (b / c) := by
  have hcnumber := (float_lt_iff.mp hc).2.1
  have hc0 := unitsOf_pos hc
  by_cases hcfin : Scalar.isFinite c = true
  · rcases Int.lt_or_le (unitsOf a) 0 with hneg | ha0
    · rw [truncate_of_nonpos (unitsOf_div_nonpos hneg hcfin hc0)]
      exact Nat.zero_le _
    · obtain ⟨hquotient, hquotient', hle⟩ := unitsOf_div_mono hcfin hc0 ha0 h
      rw [truncate_eq hquotient, truncate_eq hquotient']
      have hwhole := Nat.div_le_div_right (c := 2 ^ oneExponent) (Int.toNat_le_toNat hle)
      omega
  · obtain ⟨s, hs⟩ := infinite_of_not_isFinite hcnumber hcfin
    rw [truncate_of_nonpos (unitsOf_div_infinity hs).le]
    exact Nat.zero_le _

theorem float_truncate_zero_div (hc : 0 < c) : Scalar.truncate (0 / c) = 0 := by
  have hcnumber := (float_lt_iff.mp hc).2.1
  have hc0 := unitsOf_pos hc
  by_cases hcfin : Scalar.isFinite c = true
  · apply truncate_of_nonpos
    rw [(unitsOf_div rfl hcfin unitsOf_zero.ge hc0).2, unitsOf_zero, Int.cast_zero, zero_mul, zero_div,
      roundFraction_zero, Nat.zero_min]
    exact le_rfl
  · obtain ⟨s, hs⟩ := infinite_of_not_isFinite hcnumber hcfin
    exact truncate_of_nonpos (unitsOf_div_infinity hs).le

end

instance : LawfulQuotient Float where
  truncate_div_le := float_truncate_div_le
  truncate_zero_div := float_truncate_zero_div

end ZoneSkims
