import ZoneSkims.Proofs.Scalar.Units

/-!
# Rounded sums

A sum of numbers in double precision is the exact sum of their units, rounded to 53 significant bits
and cut at infinity. So adding keeps the order.

* `roundInt_mono`: rounding into the format keeps the order.
* `roundsFraction_roundWithAccuracy`: the format rounds every fraction of units, and so every whole
  number of them, to significant bits.
* `units_add`: the units of a sum.
-/

namespace ZoneSkims

open Float.Model (Format totalExponent UnpackedFloat)
open Float.Model.UnpackedFloat

/-! ## Rounding into the format -/

/-- A whole number of units rounded into the format. -/
def roundInt (z : Int) : Int := z.sign * (min (roundUnits 52 z.natAbs) topUnits : Nat)

theorem roundInt_natCast (n : Nat) : roundInt n = (min (roundUnits 52 n) topUnits : Nat) := by
  rcases Nat.eq_zero_or_pos n with rfl | hpos
  · simp [roundInt, roundUnits_zero]
  · rw [roundInt, Int.natAbs_natCast, Int.sign_natCast_of_ne_zero (by omega), Int.one_mul]

theorem roundInt_neg (z : Int) : roundInt (-z) = -roundInt z := by
  rw [roundInt, roundInt, Int.sign_neg, Int.natAbs_neg, Int.neg_mul]

theorem roundInt_apply (s : Sign) (n : Nat) :
    roundInt (s.apply n) = s.apply (min (roundUnits 52 n) topUnits : Nat) := by
  cases s with
  | positive => exact roundInt_natCast n
  | negative => exact (roundInt_neg n).trans (congrArg _ (roundInt_natCast n))

theorem roundInt_natCast_mono {n n' : Nat} (h : n ≤ n') : roundInt n ≤ roundInt n' := by
  rw [roundInt_natCast, roundInt_natCast]
  have := roundUnits_mono (p := 52) h
  omega

theorem roundInt_natCast_nonneg (n : Nat) : 0 ≤ roundInt n := by
  rw [roundInt_natCast]
  exact Int.natCast_nonneg _

/-- Rounding into the format keeps the order. -/
theorem roundInt_mono {a b : Int} (h : a ≤ b) : roundInt a ≤ roundInt b := by
  rcases Int.le_total 0 a with ha | ha
  · obtain ⟨n, rfl⟩ := Int.eq_ofNat_of_zero_le ha
    obtain ⟨n', rfl⟩ := Int.eq_ofNat_of_zero_le (ha.trans h)
    exact roundInt_natCast_mono (by omega)
  obtain ⟨n, hn⟩ := Int.eq_ofNat_of_zero_le (show 0 ≤ -a by omega)
  obtain rfl : a = -n := by omega
  rw [roundInt_neg]
  rcases Int.le_total 0 b with hb | hb
  · obtain ⟨n', rfl⟩ := Int.eq_ofNat_of_zero_le hb
    have := roundInt_natCast_nonneg n
    have := roundInt_natCast_nonneg n'
    omega
  · obtain ⟨n', hn'⟩ := Int.eq_ofNat_of_zero_le (show 0 ≤ -b by omega)
    obtain rfl : b = -n' := by omega
    rw [roundInt_neg]
    have := roundInt_natCast_mono (show n' ≤ n by omega)
    omega

/-! ## The rounding of a magnitude -/

theorem log2_mul_two_pow {m : Nat} (hm : 0 < m) (j : Nat) : (m * 2 ^ j).log2 = m.log2 + j := by
  have hpos : m * 2 ^ j ≠ 0 := by positivity
  refine Nat.le_antisymm ?_ ?_
  · have hlt : (m * 2 ^ j).log2 < m.log2 + 1 + j := by
      rw [Nat.log2_lt hpos, pow_add]
      exact Nat.mul_lt_mul_of_pos_right Nat.lt_log2_self (by positivity)
    omega
  · rw [Nat.le_log2 hpos, pow_add]
    exact Nat.mul_le_mul_right _ (Nat.log2_self_le hm.ne')

theorem targetExponent_eq {m k : Nat} {e : Int} (hk : (m.log2 + e + 1074 - 52).toNat = k) :
    Format.binary64.targetExponent (totalExponent m e) = -1074 + k := by
  have hbits : Format.binary64.mantissaBits = 53 := rfl
  have hmin : Format.binary64.minExponent = -1074 := rfl
  rw [Format.targetExponent, totalExponent, hbits, hmin]
  omega

/-- The bits behind the significant ones are cut off, and told by the two rounding bits. -/
theorem shiftToTargetExponent_eq (a : Accuracy) {m d k : Nat} {e : Int}
    (hk : (m.log2 + e + 1074 - 52).toNat = k) (hd : (-1074 + (k : Int) - e).toNat = d) :
    shiftToTargetExponent Format.binary64 m e a =
      (ExtendedMantissa.ofMantissaAndAccuracy m a >>> d, e + d) := by
  rw [shiftToTargetExponent, targetExponent_eq hk, shiftToExponent, hd]

theorem Represents.roundedMantissa_shiftRight {em : ExtendedMantissa} {x y : ℚ} {e : Int}
    {d k : Nat} (h : Represents em y) (hx : x = y * 2 ^ (e + 1074)) (hd : e + d = -1074 + k) :
    (em >>> d).roundedMantissa = nearestWhole (x / 2 ^ k) := by
  have hscale : y / 2 ^ d = x / 2 ^ k := by
    rw [hx, show e + 1074 = (k : Int) - d by omega, zpow_sub₀ two_ne_zero, zpow_natCast,
      zpow_natCast]
    field_simp
  rw [← hscale]
  exact (h.shiftRight d).roundedMantissa_eq

/-- A rounded mantissa takes at most one bit more than there is room for, and then gives it up. -/
theorem carry_eq {r k : Nat} (hr : r ≤ 2 ^ 53) :
    ∃ m' e', shiftToTargetExponent Format.binary64 r (-1074 + k) .exact =
        (ExtendedMantissa.ofMantissaAndAccuracy m' .exact, e') ∧
      m' < 2 ^ 53 ∧ (r = m' ∧ e' = -1074 + k ∨ m' = 2 ^ 52 ∧ e' = -1074 + k + 1) ∧
      m' * 2 ^ (e' + 1074).toNat = r * 2 ^ k := by
  rcases hr.lt_or_eq with hlt | rfl
  · have hlog : r.log2 ≤ 52 := by
      rcases Nat.eq_zero_or_pos r with rfl | hpos
      · simp
      · exact Nat.lt_succ_iff.mp ((Nat.log2_lt hpos.ne').mpr hlt)
    refine ⟨r, -1074 + k, ?_, hlt, Or.inl ⟨rfl, rfl⟩, ?_⟩
    · rw [shiftToTargetExponent_eq .exact (d := 0) rfl (by omega), Nat.cast_zero, Int.add_zero]
      rfl
    · rw [toNat_exponent]
  · have hlog : (2 ^ 53).log2 = 53 := Nat.log2_two_pow
    refine ⟨2 ^ 52, -1074 + k + 1, ?_, by decide, Or.inr ⟨rfl, rfl⟩, ?_⟩
    · rw [shiftToTargetExponent_eq .exact (d := 1) rfl (by rw [hlog]; omega)]
      rfl
    · rw [show (-1074 + (k : Int) + 1 + 1074).toNat = k + 1 by omega, pow_succ]
      ring

/-- The number has the sign `s`, and its magnitude is the rounded fraction of units. Its exponent may
be too large for the format. -/
def RoundsFraction (s : Sign) (x : ℚ) (y : UnpackedFloat) : Prop :=
  y = .zero s ∧ roundFraction 52 x = 0 ∨
    ∃ m e hm, y = .finite s m e hm ∧ Normal m e ∧ m * 2 ^ (e + 1074).toNat = roundFraction 52 x

/-- The bits of the whole part, told by a mantissa and the exponent over which it is the whole part. -/
theorem excess_eq {m : Nat} {e : Int} {x y : ℚ} (hle : (m : ℚ) ≤ y) (hlt : y < m + 1)
    (hx : x = y * 2 ^ (e + 1074)) (he : 52 ≤ m.log2 ∨ e ≤ -1074) :
    excess 52 x = (m.log2 + e + 1074 - 52).toNat := by
  have hy : 0 ≤ y := (Nat.cast_nonneg m).trans hle
  have hfloor : ⌊y⌋₊ = m := (Nat.floor_eq_iff hy).mpr ⟨hle, hlt⟩
  rw [excess, Nat.log2_eq_log_two, Nat.log2_eq_log_two]
  rw [Nat.log2_eq_log_two] at he
  rcases Int.le_total 0 (e + 1074) with h | h
  · obtain ⟨j, hj⟩ := Int.eq_ofNat_of_zero_le h
    have hdiv : ⌊x⌋₊ / 2 ^ j = m := by
      rw [← hfloor, hx, hj, zpow_natCast, ← Nat.floor_div_natCast]
      push_cast
      rw [mul_div_cancel_right₀ _ (by positivity)]
    have hlog : Nat.log 2 ⌊x⌋₊ - j = Nat.log 2 m := by rw [← Nat.log_div_base_pow, hdiv]
    rcases Nat.eq_zero_or_pos m with rfl | hm
    · rw [Nat.log_zero_right] at he hlog ⊢
      omega
    · have hj' : j ≤ Nat.log 2 ⌊x⌋₊ := by
        refine Nat.le_log_of_pow_le Nat.one_lt_two ?_
        refine (Nat.div_pos_iff.mp ?_).2
        rwa [hdiv]
      omega
  · obtain ⟨j, hj⟩ := Int.eq_ofNat_of_zero_le (show 0 ≤ -(e + 1074) by omega)
    have hdiv : ⌊x⌋₊ = m / 2 ^ j := by
      rw [← hfloor, hx, show e + 1074 = -(j : Int) by omega, zpow_neg, zpow_natCast,
        ← div_eq_mul_inv, ← Nat.floor_div_natCast]
      push_cast
      rfl
    rw [hdiv, Nat.log_div_base_pow]
    omega

theorem roundsFraction_roundWithAccuracy (s : Sign) {m : Nat} {e : Int} {a : Accuracy} {x y : ℚ}
    (h : Represents (ExtendedMantissa.ofMantissaAndAccuracy m a) y) (hx : x = y * 2 ^ (e + 1074))
    (he : 52 ≤ m.log2 ∨ e ≤ -1074) :
    RoundsFraction s x (roundWithAccuracy Format.binary64 s m e a) := by
  have hmantissa : (ExtendedMantissa.ofMantissaAndAccuracy m a).mantissa = m := by
    cases a with
    | exact => rfl
    | inexact o => cases o <;> rfl
  have hle : (m : ℚ) ≤ y := hmantissa ▸ h.mantissa_le
  have hlt : y < m + 1 := hmantissa ▸ h.lt_succ
  have hx0 : 0 ≤ x := by
    have hy : 0 ≤ y := (Nat.cast_nonneg m).trans hle
    rw [hx]
    positivity
  obtain ⟨k, hk⟩ : ∃ k, k = excess 52 x := ⟨_, rfl⟩
  have hexcess := excess_eq hle hlt hx he
  rw [← hk] at hexcess
  obtain ⟨d, hd⟩ : ∃ d : Nat, e + d = -1074 + k := ⟨(-1074 + k - e).toNat, by omega⟩
  have hshift := shiftToTargetExponent_eq a hexcess.symm (d := d) (by omega)
  rw [hd] at hshift
  have hr := h.roundedMantissa_shiftRight hx hd
  generalize ExtendedMantissa.ofMantissaAndAccuracy m a >>> d = em at hshift hr
  have hround : roundFraction 52 x = em.roundedMantissa * 2 ^ k := by rw [roundFraction, hr, hk]
  obtain ⟨m', e', hcarry, htop, hcases, hvalue⟩ := carry_eq (r := em.roundedMantissa) (k := k) (by
    rw [hr, hk]
    exact nearestWhole_excess_le hx0)
  rw [roundWithAccuracy]
  simp only [hshift, hcarry]
  by_cases hm' : m' = 0
  · left
    refine ⟨dif_pos hm', ?_⟩
    rw [hround, ← hvalue, hm', Nat.zero_mul]
  · right
    refine ⟨m', e', Nat.pos_of_ne_zero hm', dif_neg hm', ⟨htop, ?_, ?_⟩, by rw [hround, hvalue]⟩
    · rcases hcases with ⟨-, h⟩ | ⟨-, h⟩ <;> omega
    · rcases hcases with ⟨hr', h'⟩ | ⟨h', -⟩
      · rcases Nat.eq_zero_or_pos k with rfl | hpos
        · exact Or.inr (by omega)
        · left
          rw [← hr', hr, hk]
          exact le_nearestWhole_excess hx0 (hk ▸ hpos)
      · exact Or.inl h'.ge

/-- The number is not 0, and its magnitude is the rounded whole number of units. -/
def RoundsTo (s : Sign) (n : Nat) (x : UnpackedFloat) : Prop :=
  ∃ m e hm, x = .finite s m e hm ∧ Normal m e ∧ m * 2 ^ (e + 1074).toNat = roundUnits 52 n

theorem RoundsTo.roundsFraction {s : Sign} {n : Nat} {x : UnpackedFloat} (h : RoundsTo s n x) :
    RoundsFraction s n x := by
  obtain ⟨m, e, hm, hx, hnormal, hvalue⟩ := h
  exact .inr ⟨m, e, hm, hx, hnormal, by rw [hvalue, roundFraction_natCast]⟩

/-- A positive whole number of units is not rounded to 0. -/
theorem RoundsFraction.roundsTo {s : Sign} {n : Nat} {x : UnpackedFloat}
    (h : RoundsFraction s n x) (hn : 0 < n) : RoundsTo s n x := by
  rw [RoundsFraction, roundFraction_natCast] at h
  refine h.resolve_left fun hzero => ?_
  have hone : roundUnits 52 1 = 1 := by
    simpa using roundUnits_mul (p := 52) (m := 1) (j := 0) (by decide)
  have hle : roundUnits 52 1 ≤ roundUnits 52 n := roundUnits_mono hn
  omega

theorem roundsTo_roundWithAccuracy (s : Sign) {m j : Nat} (hm : 0 < m) (hj : j ≤ m.log2 + j - 52) :
    RoundsTo s (m * 2 ^ j) (roundWithAccuracy Format.binary64 s m (-1074 + j) .exact) := by
  refine (roundsFraction_roundWithAccuracy s (represents_exact m) ?_ ?_).roundsTo (by positivity)
  · rw [show -1074 + (j : Int) + 1074 = j by omega, zpow_natCast]
    push_cast
    rfl
  · omega

theorem roundsTo_round (s : Sign) {m : Nat} {e : Int} (hm : 0 < m) (he : -1074 ≤ e) :
    RoundsTo s (m * 2 ^ (e + 1074).toNat) (round Format.binary64 s m e) := by
  obtain ⟨j, rfl⟩ : ∃ j : Nat, e = -1074 + j := ⟨(e + 1074).toNat, by omega⟩
  obtain ⟨k, hk⟩ : ∃ k, k = m.log2 + j - 52 := ⟨_, rfl⟩
  rw [toNat_exponent, UnpackedFloat.round, targetExponent_eq (k := k) (by omega), decreaseExponent]
  -- bits are added below until the exponent is the target
  obtain ⟨i, hi⟩ : ∃ i, i = j - k := ⟨_, rfl⟩
  have hshift : (-1074 + (j : Int) - (-1074 + k)).toNat = i := by omega
  have hexp : -1074 + (j : Int) - (i : Nat) = -1074 + (j - i : Nat) := by omega
  simp only [hshift, hexp, Nat.shiftLeft_eq]
  have hsplit : m * 2 ^ j = m * 2 ^ i * 2 ^ (j - i) := by
    rw [Nat.mul_assoc, ← pow_add, Nat.add_sub_cancel' (by omega)]
  rw [hsplit]
  refine roundsTo_roundWithAccuracy s (by positivity) ?_
  rw [log2_mul_two_pow hm]
  omega

/-- After packing the number is defined and has these units. -/
def HasUnits (x : UnpackedFloat) (z : Int) : Prop :=
  (unpack Format.binary64 (pack Format.binary64 x)).isNaN = false ∧
    units (unpack Format.binary64 (pack Format.binary64 x)) = z

theorem RoundsFraction.hasUnits {s : Sign} {x : ℚ} {y : UnpackedFloat} (h : RoundsFraction s x y) :
    HasUnits y (s.apply (min (roundFraction 52 x) topUnits : Nat)) := by
  rcases h with ⟨rfl, hzero⟩ | ⟨m, e, hm, rfl, hnormal, hvalue⟩
  · rw [HasUnits, unpack_pack_zero, hzero, Nat.zero_min]
    refine ⟨rfl, ?_⟩
    cases s <;> rfl
  · rw [HasUnits, unpack_pack_finite hm hnormal, ← hvalue]
    split_ifs with he
    · refine ⟨rfl, ?_⟩
      rw [units, min_eq_left (magnitude_lt_top hnormal he).le]
    · refine ⟨rfl, ?_⟩
      rw [units, min_eq_right (top_le_magnitude hnormal (by omega))]

theorem RoundsTo.hasUnits {s : Sign} {n : Nat} {x : UnpackedFloat} (h : RoundsTo s n x) :
    HasUnits x (roundInt (s.apply n)) := by
  rw [roundInt_apply, ← roundFraction_natCast]
  exact h.roundsFraction.hasUnits

/-! ## Sums and differences -/

theorem roundInt_units {x : UnpackedFloat} (h : Canonical x) (hfin : x.isFinite = true) :
    roundInt (units x) = units x := by
  cases x with
  | infinity s => cases hfin
  | notANumber => cases hfin
  | zero s => rfl
  | finite s m e hm =>
    rw [units, roundInt_apply, roundUnits_mul h.1.lt_top,
      min_eq_left (magnitude_lt_top h.1 h.2).le]

theorem hasUnits_of_canonical {x : UnpackedFloat} (h : Canonical x) (hfin : x.isFinite = true) :
    HasUnits x (roundInt (units x)) := by
  rw [HasUnits, unpack_pack_of_canonical h, roundInt_units h hfin]
  refine ⟨?_, rfl⟩
  cases x with
  | notANumber => cases hfin
  | infinity s => rfl
  | zero s => rfl
  | finite s m e hm => rfl

theorem hasUnits_normalize (z : Int) {e : Int} (he : -1074 ≤ e) :
    HasUnits (normalize Format.binary64 z e .positive) (roundInt (z * 2 ^ (e + 1074).toNat)) := by
  unfold UnpackedFloat.normalize
  rcases lt_trichotomy z 0 with hlt | rfl | hgt
  · obtain ⟨n, hn⟩ := Int.eq_ofNat_of_zero_le (show 0 ≤ -z by omega)
    obtain rfl : z = -n := by omega
    rw [compare_lt_iff_lt.mpr hlt]
    have h := (roundsTo_round .negative (show 0 < n by omega) he).hasUnits
    simp only [Sign.apply, Nat.cast_mul, Nat.cast_pow, Nat.cast_ofNat] at h
    simpa only [Int.neg_neg, Int.toNat_natCast, Int.neg_mul] using h
  · rw [compare_eq_iff_eq.mpr rfl]
    refine ⟨?_, ?_⟩ <;> rw [unpack_pack_zero]
    · rfl
    · rw [Int.zero_mul]
      rfl
  · obtain ⟨n, rfl⟩ := Int.eq_ofNat_of_zero_le hgt.le
    rw [compare_gt_iff_gt.mpr hgt]
    have h := (roundsTo_round .positive (show 0 < n by omega) he).hasUnits
    simp only [Sign.apply, Nat.cast_mul, Nat.cast_pow, Nat.cast_ofNat] at h
    simpa only [Int.toNat_natCast] using h

/-- The units of a number over a lower exponent. -/
theorem units_decrease (s : Sign) {m : Nat} {e e₀ : Int} (hm : 0 < m) (h₀ : -1074 ≤ e₀)
    (he : e₀ ≤ e) :
    units (.finite s m e hm) =
      s.apply ((decreaseExponent m e e₀).1 : Int) * 2 ^ (e₀ + 1074).toNat := by
  have hsplit : (e + 1074).toNat = (e - e₀).toNat + (e₀ + 1074).toNat := by omega
  rw [units, decreaseExponent, hsplit, pow_add, Nat.shiftLeft_eq]
  cases s <;> simp only [Sign.apply] <;> push_cast <;> ring

/-- The units of a sum are the rounded sum of the units. -/
theorem units_add {x y : UnpackedFloat} (hx : Canonical x) (hy : Canonical y)
    (hxf : x.isFinite = true) (hyf : y.isFinite = true) :
    HasUnits (add Format.binary64 x y) (roundInt (units x + units y)) := by
  cases x with
  | infinity s => cases hxf
  | notANumber => cases hxf
  | zero s =>
    cases y with
    | infinity t => cases hyf
    | notANumber => cases hyf
    | zero t => cases s <;> cases t <;> exact hasUnits_of_canonical trivial rfl
    | finite t m e hm =>
      rw [show units (.zero s) = 0 from rfl, Int.zero_add]
      exact hasUnits_of_canonical hy rfl
  | finite s m e hm =>
    cases y with
    | infinity t => cases hyf
    | notANumber => cases hyf
    | zero t =>
      rw [show units (.zero t) = 0 from rfl, Int.add_zero]
      exact hasUnits_of_canonical hx rfl
    | finite t m' e' hm' =>
      have he := hx.1.exponent_ge
      have he' := hy.1.exponent_ge
      have hmin : -1074 ≤ min e e' := by omega
      rw [units_decrease s hm hmin (min_le_left e e'),
        units_decrease t hm' hmin (min_le_right e e'), ← Int.add_mul]
      exact hasUnits_normalize _ hmin

/-- A difference from a finite number is defined. -/
theorem isNaN_sub {x y : UnpackedFloat} (hx : Canonical x) (hy : Canonical y)
    (hxn : x.isNaN = false) (hyf : y.isFinite = true) :
    (unpack Format.binary64 (pack Format.binary64 (sub Format.binary64 x y))).isNaN = false := by
  cases y with
  | infinity t => cases hyf
  | notANumber => cases hyf
  | zero t =>
    cases x with
    | notANumber => cases hxn
    | infinity s => exact congrArg UnpackedFloat.isNaN (unpack_pack_infinity s)
    | zero s => cases s <;> cases t <;> exact congrArg UnpackedFloat.isNaN (unpack_pack_zero _)
    | finite s m e hm => exact (hasUnits_of_canonical hx rfl).1
  | finite t m' e' hm' =>
    cases x with
    | notANumber => cases hxn
    | infinity s => exact congrArg UnpackedFloat.isNaN (unpack_pack_infinity s)
    | zero s =>
      have hneg : Canonical (.finite (-t) m' e' hm') := hy
      exact (hasUnits_of_canonical hneg rfl).1
    | finite s m e hm =>
      have he := hx.1.exponent_ge
      have he' := hy.1.exponent_ge
      exact (hasUnits_normalize _ (show -1074 ≤ min e e' by omega)).1

end ZoneSkims
