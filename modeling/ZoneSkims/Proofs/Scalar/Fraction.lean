import ZoneSkims.Proofs.Scalar.Magnitude

/-!
# Rounded products and quotients

In double precision a product or a quotient is the exact one, as a fraction of units, rounded to 53
significant bits and cut at infinity. The fraction need not be whole, as it is for sums, so that the
accuracy of a quotient has to tell where it lies between two whole numbers.

* `hasUnits_mul`: the units of a product.
* `represents_accuracyOfFraction`: where a quotient lies.
* `hasUnits_div`: the units of a quotient.
-/

namespace ZoneSkims

open Float.Model (Format totalExponent UnpackedFloat)
open Float.Model.UnpackedFloat

/-! ## Products -/

/-- A number that is not negative is 0 or has a positive mantissa. -/
theorem exists_of_units_nonneg {x : UnpackedFloat} (h : Canonical x) (hfin : x.isFinite = true)
    (h0 : 0 ≤ units x) : (∃ s, x = .zero s) ∨
      ∃ (m j : Nat) (hm : 0 < m), x = .finite .positive m (-1074 + j) hm ∧
        Normal m (-1074 + j) ∧ units x = (m * 2 ^ j : Nat) := by
  cases x with
  | infinity s => cases hfin
  | notANumber => cases hfin
  | zero s => exact .inl ⟨s, rfl⟩
  | finite s m e hm =>
    have hpos := magnitude_pos (e := e) hm
    cases s with
    | negative =>
      simp only [units, Sign.apply] at h0
      omega
    | positive =>
      obtain ⟨j, rfl⟩ := h.1.exists_exponent
      refine .inr ⟨m, j, hm, rfl, h.1, ?_⟩
      rw [units, Sign.apply, toNat_exponent]

theorem log2_ge_of_normal {m : Nat} {e : Int} (h : Normal m e) (he : e ≠ -1074) : 52 ≤ m.log2 :=
  have hm : 2 ^ 52 ≤ m := h.leading.resolve_right he
  (Nat.le_log2 (by omega)).mpr hm

theorem hasUnits_zero (s : Sign) :
    HasUnits (.zero s) (min (roundFraction 52 0) topUnits : Nat) := by
  rw [roundFraction_zero, Nat.zero_min, HasUnits, unpack_pack_zero]
  exact ⟨rfl, rfl⟩

/-- The units of a product are the rounded product of the numbers. -/
theorem hasUnits_mul {x y : UnpackedFloat} (hx : Canonical x) (hy : Canonical y)
    (hxf : x.isFinite = true) (hyf : y.isFinite = true) (hx0 : 0 ≤ units x) (hy0 : 0 ≤ units y) :
    HasUnits (mul Format.binary64 x y)
      (min (roundFraction 52 (units x * units y / 2 ^ oneExponent)) topUnits : Nat) := by
  rcases exists_of_units_nonneg hx hxf hx0 with ⟨s, rfl⟩ | ⟨m, j, hm, rfl, hnormal, hunits⟩
  · rw [show units (.zero s) = 0 from rfl, Int.cast_zero, zero_mul, zero_div]
    rcases exists_of_units_nonneg hy hyf hy0 with ⟨t, rfl⟩ | ⟨m', j', hm', rfl, -, -⟩
    · exact hasUnits_zero _
    · exact hasUnits_zero _
  · rcases exists_of_units_nonneg hy hyf hy0 with ⟨t, rfl⟩ | ⟨m', j', hm', rfl, hnormal', hunits'⟩
    · rw [show units (.zero t) = 0 from rfl, Int.cast_zero, mul_zero, zero_div]
      exact hasUnits_zero _
    · rw [hunits, hunits']
      have hrep := represents_exact (m * m')
      have hone := oneExponent_eq
      refine (roundsFraction_roundWithAccuracy (Sign.positive * Sign.positive) hrep ?_ ?_).hasUnits
      · rw [show (-1074 + (j : Int) + (-1074 + j') + 1074) = (j + j' : Nat) - (oneExponent : Nat) by
          rw [hone]; push_cast; ring, zpow_sub₀ two_ne_zero, zpow_natCast, zpow_natCast, pow_add]
        push_cast
        ring
      · by_cases he : -1074 + (j : Int) = -1074
        · by_cases he' : -1074 + (j' : Int) = -1074
          · right
            omega
          · left
            have hlog := log2_ge_of_normal hnormal' he'
            rw [Nat.log2_eq_log_two] at hlog ⊢
            exact hlog.trans (Nat.log_mono_right (Nat.le_mul_of_pos_left _ hm))
        · left
          have hlog := log2_ge_of_normal hnormal he
          rw [Nat.log2_eq_log_two] at hlog ⊢
          exact hlog.trans (Nat.log_mono_right (Nat.le_mul_of_pos_right _ hm'))

/-! ## Quotients -/

theorem represents_add {q : Nat} {f : ℚ} {r s : Bool} (h0 : 0 ≤ f) (h1 : f < 1)
    (hr : r = true ↔ 1 / 2 ≤ f) (hs : s = false ↔ f = 0 ∨ f = 1 / 2) :
    Represents ⟨q, r, s⟩ (q + f) where
  mantissa_le := le_add_of_nonneg_right h0
  lt_succ := add_lt_add_right h1 _
  roundBit := by rw [hr, add_le_add_iff_left]
  stickyBit := by rw [hs, add_eq_left, add_right_inj]

/-- The accuracy of a quotient tells where it lies between two whole numbers. -/
theorem represents_accuracyOfFraction (n : Nat) {d : Nat} (hd : 0 < d) :
    Represents (ExtendedMantissa.ofMantissaAndAccuracy (n / d) (accuracyOfFraction (n % d) d))
      ((n : ℚ) / d) := by
  have hdq : (0 : ℚ) < d := by exact_mod_cast hd
  obtain ⟨f, hf⟩ : ∃ f : ℚ, f = ((n % d : Nat) : ℚ) / d := ⟨_, rfl⟩
  have hsplit : (n : ℚ) / d = (n / d : Nat) + f := by
    have hn : ((d * (n / d) + n % d : Nat) : ℚ) = n := by rw [Nat.div_add_mod]
    rw [← hn, hf]
    push_cast
    field_simp
  have h0 : 0 ≤ f := by
    rw [hf]
    positivity
  have h1 : f < 1 := by
    rw [hf, div_lt_one hdq]
    exact_mod_cast Nat.mod_lt n hd
  have hzero : n % d = 0 ↔ f = 0 := by
    rw [hf, div_eq_zero_iff, Nat.cast_eq_zero, or_iff_left hdq.ne']
  have hhalf : compare (2 * (n % d)) d = compare f (1 / 2) := by
    have hcast : f - 1 / 2 = ((2 * (n % d) : Nat) - (d : ℚ)) / (2 * d) := by
      rw [hf]
      push_cast
      field_simp
    rcases lt_trichotomy (2 * (n % d)) d with h | h | h
    · have hneg : f - 1 / 2 < 0 := by
        rw [hcast]
        exact div_neg_of_neg_of_pos (sub_neg.mpr (by exact_mod_cast h)) (by positivity)
      rw [compare_lt_iff_lt.mpr h, compare_lt_iff_lt.mpr (sub_neg.mp hneg)]
    · have hnone : f - 1 / 2 = 0 := by rw [hcast, h, sub_self, zero_div]
      rw [compare_eq_iff_eq.mpr h, compare_eq_iff_eq.mpr (sub_eq_zero.mp hnone)]
    · have hpos : 0 < f - 1 / 2 := by
        rw [hcast]
        exact div_pos (sub_pos.mpr (by exact_mod_cast h)) (by positivity)
      rw [compare_gt_iff_gt.mpr h, compare_gt_iff_gt.mpr (sub_pos.mp hpos)]
  rw [hsplit, accuracyOfFraction, hhalf]
  split_ifs with hnone
  · rw [hzero.mp hnone, add_zero]
    exact represents_exact _
  · have hexact : f ≠ 0 := fun h => hnone (hzero.mpr h)
    rcases lt_trichotomy f (1 / 2) with h | h | h
    · rw [compare_lt_iff_lt.mpr h]
      exact represents_add h0 h1 (iff_of_false nofun h.not_ge)
        (iff_of_false nofun fun hor => hor.elim hexact h.ne)
    · rw [compare_eq_iff_eq.mpr h]
      exact represents_add h0 h1 (iff_of_true rfl h.ge) (iff_of_true rfl (.inr h))
    · rw [compare_gt_iff_gt.mpr h]
      exact represents_add h0 h1 (iff_of_true rfl h.le)
        (iff_of_false nofun fun hor => hor.elim hexact h.ne')

/-- The quotient of two mantissas with bits added below, so that enough of them are significant. -/
theorem roundsFraction_div {m m' j j' : Nat} (hm : 0 < m) (hm' : 0 < m') (s t : Sign)
    {hm₀ : 0 < m} {hm₀' : 0 < m'} :
    RoundsFraction (s / t) ((m * 2 ^ j : Nat) * 2 ^ oneExponent / (m' * 2 ^ j' : Nat))
      (div Format.binary64 (.finite s m (-1074 + j) hm₀) (.finite t m' (-1074 + j') hm₀')) := by
  obtain ⟨e, he⟩ : ∃ e : Int, e = min (-1074 + (j : Int) - (-1074 + j'))
    (Format.binary64.targetExponent (totalExponent m (-1074 + j) - totalExponent m' (-1074 + j'))) :=
    ⟨_, rfl⟩
  obtain ⟨i, hi⟩ : ∃ i : Nat, e + i = (j : Int) - j' :=
    ⟨((j : Int) - j' - e).toNat, by omega⟩
  have htarget : e ≤ max ((m.log2 : Int) - m'.log2 + j - j' - 53) (-1074) := by
    rw [he, Format.targetExponent, totalExponent, totalExponent]
    have hbits : Format.binary64.mantissaBits = 53 := rfl
    have hmin : Format.binary64.minExponent = -1074 := rfl
    rw [hbits, hmin]
    omega
  have hdiv : div Format.binary64 (.finite s m (-1074 + j) hm₀) (.finite t m' (-1074 + j') hm₀') =
      roundWithAccuracy Format.binary64 (s / t) (m * 2 ^ i / m') e
        (accuracyOfFraction (m * 2 ^ i % m') m') := by
    have hshift : (-1074 + (j : Int) - (-1074 + j') - e).toNat = i := by omega
    simp only [div, divCore, ← he, hshift, Nat.shiftLeft_eq]
  rw [hdiv]
  refine roundsFraction_roundWithAccuracy _ (represents_accuracyOfFraction _ hm') ?_ ?_
  · have hone := oneExponent_eq
    rw [show e + 1074 = (j : Int) + (oneExponent : Nat) - (i + j' : Nat) by
      rw [hone]; push_cast; omega, zpow_sub₀ two_ne_zero, zpow_add₀ two_ne_zero, zpow_natCast,
      zpow_natCast, zpow_natCast, pow_add]
    push_cast
    field_simp
  · have hpow : 2 ^ (m.log2 + i) < 2 ^ ((m * 2 ^ i / m').log2 + 1 + (m'.log2 + 1)) := by
      calc 2 ^ (m.log2 + i) = 2 ^ m.log2 * 2 ^ i := pow_add ..
        _ ≤ m * 2 ^ i := Nat.mul_le_mul_right _ (Nat.log2_self_le hm.ne')
        _ < m' * (m * 2 ^ i / m' + 1) := Nat.lt_mul_div_succ _ hm'
        _ ≤ 2 ^ (m'.log2 + 1) * 2 ^ ((m * 2 ^ i / m').log2 + 1) :=
          Nat.mul_le_mul Nat.lt_log2_self.le Nat.lt_log2_self
        _ = _ := by rw [← pow_add, Nat.add_comm]
    have hlog := (Nat.pow_lt_pow_iff_right Nat.one_lt_two).mp hpow
    omega

/-- The units of a quotient are the rounded quotient of the numbers. -/
theorem hasUnits_div {x y : UnpackedFloat} (hx : Canonical x) (hy : Canonical y)
    (hxf : x.isFinite = true) (hyf : y.isFinite = true) (hx0 : 0 ≤ units x) (hy0 : 0 < units y) :
    HasUnits (div Format.binary64 x y)
      (min (roundFraction 52 (units x * 2 ^ oneExponent / units y)) topUnits : Nat) := by
  rcases exists_of_units_nonneg hy hyf hy0.le with ⟨t, rfl⟩ | ⟨m', j', hm', rfl, -, hunits'⟩
  · exact absurd hy0 (Int.lt_irrefl 0)
  · rcases exists_of_units_nonneg hx hxf hx0 with ⟨s, rfl⟩ | ⟨m, j, hm, rfl, -, hunits⟩
    · rw [show units (.zero s) = 0 from rfl, Int.cast_zero, zero_mul, zero_div]
      exact hasUnits_zero _
    · rw [hunits, hunits', Int.cast_natCast, Int.cast_natCast]
      exact (roundsFraction_div hm hm' .positive .positive).hasUnits

end ZoneSkims
