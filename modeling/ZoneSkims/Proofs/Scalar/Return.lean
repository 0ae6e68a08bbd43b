import ZoneSkims.Proofs.Scalar.Magnitude

/-!
# Differences added back

Taking `w` from `d` and adding it again need not give `d` back in double precision, because both
steps round. The result is above `d` only when the difference was rounded up, and then by no more
than half a step of the difference. If that step is no finer than the one of `d`, the sum lies at
most half way to the next number, and rounding to even takes it to `d` when the last bit of `d` is
free. That is so for times in whole ticks of a clock.

* `unitsOf_sub`: the units of a difference.
* `roundUnits_le_of_half`: a number with a free bit takes what lies at most half a step above it.
* `ClockTimes`: times in whole ticks, and what is taken from them.
* `ComesBack`: no rounding up, or times of a clock.
* `float_sub_add_le`: the main result.
-/

namespace ZoneSkims

open Float.Model (Format UnpackedFloat)
open Float.Model.UnpackedFloat

/-! ## Differences -/

theorem sub_eq_add_neg (f : Format) (x y : UnpackedFloat) : sub f x y = add f x y.neg := by
  cases x with
  | notANumber => cases y <;> rfl
  | infinity s => cases y <;> rfl
  | zero s => cases y <;> rfl
  | finite s m e hm =>
    cases y with
    | notANumber => rfl
    | infinity t => rfl
    | zero t => rfl
    | finite t m' e' hm' =>
      cases t with
      | positive => exact congrArg (normalize f · _ _) (Int.sub_eq_add_neg ..)
      | negative => exact congrArg (normalize f · _ _) (Int.sub_neg ..)

theorem units_neg (x : UnpackedFloat) : units x.neg = -units x := by
  cases x with
  | notANumber => rfl
  | infinity s => cases s <;> simp [UnpackedFloat.neg, units, Sign.apply]
  | zero s => rfl
  | finite s m e hm => cases s <;> simp [UnpackedFloat.neg, units, Sign.apply]

theorem canonical_neg {x : UnpackedFloat} (h : Canonical x) : Canonical x.neg := by
  cases x <;> exact h

theorem isFinite_neg (x : UnpackedFloat) : x.neg.isFinite = x.isFinite := by
  cases x <;> rfl

/-- The units of a difference are the rounded difference of the units. -/
theorem unitsOf_sub {a b : Float} (ha : Scalar.isFinite a = true) (hb : Scalar.isFinite b = true) :
    unitsOf (a - b) = roundInt (unitsOf a - unitsOf b) := by
  have hsum := (units_add (canonical_unpacked a) (canonical_neg (canonical_unpacked b)) ha
    ((isFinite_neg _).trans hb)).2
  rw [units_neg, ← Int.sub_eq_add_neg, ← sub_eq_add_neg] at hsum
  exact hsum

theorem add_of_not_isFinite {f : Format} {x y : UnpackedFloat}
    (h : x.isFinite = false ∨ y.isFinite = false) :
    (∃ s, add f x y = .infinity s) ∨ add f x y = .notANumber := by
  cases x with
  | notANumber => exact .inr (by simp [add])
  | infinity s =>
    cases y with
    | notANumber => exact .inr (by simp [add])
    | infinity t => cases s <;> cases t <;> simp [add]
    | zero t => exact .inl ⟨s, by simp [add]⟩
    | finite t m e hm => exact .inl ⟨s, by simp [add]⟩
  | zero s =>
    cases y with
    | notANumber => exact .inr (by simp [add])
    | infinity t => exact .inl ⟨t, by simp [add]⟩
    | zero t => simp [UnpackedFloat.isFinite] at h
    | finite t m e hm => simp [UnpackedFloat.isFinite] at h
  | finite s m e hm =>
    cases y with
    | notANumber => exact .inr (by simp [add])
    | infinity t => exact .inl ⟨t, by simp [add]⟩
    | zero t => simp [UnpackedFloat.isFinite] at h
    | finite t m e hm => simp [UnpackedFloat.isFinite] at h

/-- A difference is finite only when both terms are. -/
theorem isFinite_of_isFinite_sub {a b : Float} (h : Scalar.isFinite (a - b) = true) :
    Scalar.isFinite a = true ∧ Scalar.isFinite b = true := by
  rw [float_isFinite, unpacked_sub, sub_eq_add_neg] at h
  rw [float_isFinite, float_isFinite, ← isFinite_neg (unpacked b)]
  by_contra hnot
  rw [← Bool.and_eq_true, Bool.not_eq_true, Bool.and_eq_false_iff] at hnot
  rcases add_of_not_isFinite hnot with ⟨s, hsum⟩ | hsum
  · rw [hsum, unpack_pack_infinity] at h
    cases h
  · rw [hsum, unpack_pack_notANumber] at h
    cases h

/-! ## Half a step -/

/-- Rounding goes up by half a step at most. -/
theorem two_mul_roundTo_le (k n : Nat) : 2 * roundTo k n ≤ 2 * n + 2 ^ k := by
  have h := represents_shift k n
  have hstep : (nearestMultiple k n : ℚ) ≤ (n : ℚ) / 2 ^ k + 1 / 2 := by
    rcases lt_or_ge ((n : ℚ) / 2 ^ k)
      ((ExtendedMantissa.ofMantissaAndAccuracy n .exact >>> k).mantissa + 1 / 2) with hlt | hge
    · rw [nearestMultiple, h.roundedMantissa_of_lt hlt]
      linarith [h.mantissa_le]
    · have hle : (nearestMultiple k n : ℚ) ≤
          (ExtendedMantissa.ofMantissaAndAccuracy n .exact >>> k).mantissa + 1 := by
        exact_mod_cast h.roundedMantissa_bounds.2
      linarith
  have hpow : (0 : ℚ) < 2 ^ k := by positivity
  have hscaled : (nearestMultiple k n : ℚ) * 2 ^ k ≤ n + 2 ^ k / 2 := by
    calc (nearestMultiple k n : ℚ) * 2 ^ k ≤ ((n : ℚ) / 2 ^ k + 1 / 2) * 2 ^ k := by gcongr
      _ = n + 2 ^ k / 2 := by field_simp
  have hcast : ((2 * roundTo k n : Nat) : ℚ) ≤ ((2 * n + 2 ^ k : Nat) : ℚ) := by
    rw [roundTo]
    push_cast
    linarith
  exact_mod_cast hcast

/-- An even multiple takes what lies at most half a step above it. -/
theorem nearestMultiple_le_of_half {k q n : Nat} (hq : q % 2 = 0)
    (h : 2 * n ≤ (2 * q + 1) * 2 ^ k) : nearestMultiple k n ≤ q := by
  have hrep := represents_shift k n
  have hhalf : (n : ℚ) / 2 ^ k ≤ q + 1 / 2 := by
    rw [div_le_iff₀ (by positivity)]
    have hcast : (2 * n : ℚ) ≤ (2 * q + 1) * 2 ^ k := by exact_mod_cast h
    linarith
  have hfloor : (ExtendedMantissa.ofMantissaAndAccuracy n .exact >>> k).mantissa ≤ q := by
    have hlt : ((ExtendedMantissa.ofMantissaAndAccuracy n .exact >>> k).mantissa : ℚ) < q + 1 := by
      linarith [hrep.mantissa_le]
    exact Nat.lt_succ_iff.mp (by exact_mod_cast hlt)
  rw [nearestMultiple]
  rcases hfloor.lt_or_eq with hlt | heq
  · exact hrep.roundedMantissa_bounds.2.trans hlt
  · rcases hhalf.lt_or_eq with hx | hx
    · exact (hrep.roundedMantissa_of_lt (by rwa [heq])).le.trans heq.le
    · rw [hrep.roundedMantissa_of_eq (by rwa [heq]), heq, hq, Nat.add_zero]

/-- A number with a free bit takes what lies at most half a step above it. -/
theorem roundUnits_le_of_half {p m j n : Nat} (hm : m < 2 ^ p)
    (h : 2 * n ≤ 2 * (m * 2 ^ j) + 2 ^ ((m * 2 ^ j).log2 - p)) :
    roundUnits p n ≤ m * 2 ^ j := by
  have hown : roundUnits p (m * 2 ^ j) = m * 2 ^ j :=
    roundUnits_mul (hm.trans_le (Nat.pow_le_pow_right (by decide) (Nat.le_succ p)))
  rcases le_or_gt n (m * 2 ^ j) with hle | hlt
  · exact (roundUnits_mono hle).trans_eq hown
  have hpos : 0 < m * 2 ^ j := by
    rcases Nat.eq_zero_or_pos (m * 2 ^ j) with hzero | hpos
    · rw [hzero, Nat.log2_zero, Nat.zero_sub] at h
      omega
    · exact hpos
  have hlog : (m * 2 ^ j).log2 < p + j := by
    rw [Nat.log2_lt hpos.ne', pow_add]
    exact Nat.mul_lt_mul_of_pos_right hm (by positivity)
  have htop := lt_two_pow_excess p (m * 2 ^ j)
  have hlow := Nat.log2_self_le hpos.ne'
  obtain ⟨k, hk⟩ : ∃ k, k = (m * 2 ^ j).log2 - p := ⟨_, rfl⟩
  rw [← hk] at h htop
  have hk0 : 0 < k := by
    rcases Nat.eq_zero_or_pos k with rfl | hk0
    · omega
    · exact hk0
  -- the number is an even multiple of its step
  obtain ⟨i, hi⟩ : ∃ i, j = i + 1 + k := ⟨j - k - 1, by omega⟩
  obtain ⟨q, heven, hsplit⟩ : ∃ q, q % 2 = 0 ∧ m * 2 ^ j = q * 2 ^ k := by
    refine ⟨m * 2 ^ i * 2, by omega, ?_⟩
    rw [hi, pow_add, pow_succ]
    ring
  rw [hsplit] at h htop hlow hlt hk ⊢
  have hq : q + 1 ≤ 2 ^ (p + 1) := Nat.lt_of_mul_lt_mul_right htop
  have hstep : 0 < 2 ^ k := by positivity
  have hbelow : n < 2 ^ (p + k + 1) := by
    calc n < (q + 1) * 2 ^ k := by rw [Nat.add_mul]; omega
      _ ≤ 2 ^ (p + 1) * 2 ^ k := Nat.mul_le_mul_right _ hq
      _ = 2 ^ (p + k + 1) := by rw [← pow_add]; congr 1; omega
  have hlog' : n.log2 = p + k := by
    rw [Nat.log2_eq_iff (by omega)]
    refine ⟨?_, hbelow⟩
    rw [show p + k = (q * 2 ^ k).log2 by omega]
    exact hlow.trans hlt.le
  rw [roundUnits, hlog', Nat.add_sub_cancel_left]
  refine Nat.mul_le_mul_right _ (nearestMultiple_le_of_half heven ?_)
  rw [Nat.add_mul, Nat.mul_assoc, Nat.one_mul]
  exact h

/-! ## Times of a clock -/

/-- A difference from whole ticks that is not negative, added back, is not above them. -/
theorem roundInt_sub_add_le {n j w : Nat} (hn : n < 2 ^ 52) (hw : w ≤ n * 2 ^ j) :
    roundInt (roundInt ((n * 2 ^ j : Nat) - (w : Int)) + w) ≤ (n * 2 ^ j : Nat) := by
  obtain ⟨d, hd⟩ : ∃ d, d = n * 2 ^ j := ⟨_, rfl⟩
  rw [← hd] at hw ⊢
  obtain ⟨x, rfl⟩ := Nat.exists_eq_add_of_le hw
  have hdifference : ((w + x : Nat) : Int) - w = x := by push_cast; ring
  rw [hdifference, roundInt_natCast, ← Nat.cast_add, roundInt_natCast]
  refine Int.ofNat_le.mpr ((min_le_left _ _).trans ?_)
  rw [hd]
  refine roundUnits_le_of_half hn ?_
  rw [← hd]
  have herror := two_mul_roundTo_le (x.log2 - 52) x
  have hcut := min_le_left (roundUnits 52 x) topUnits
  have hstep : 2 ^ (x.log2 - 52) ≤ 2 ^ ((w + x).log2 - 52) := by
    refine Nat.pow_le_pow_right (by decide) (Nat.sub_le_sub_right ?_ 52)
    rcases Nat.eq_zero_or_pos x with rfl | hx
    · rw [Nat.log2_zero]
      exact Nat.zero_le _
    · exact (Nat.le_log2 (by omega)).mpr ((Nat.log2_self_le hx.ne').trans (Nat.le_add_left x w))
  rw [roundUnits] at hcut ⊢
  omega

/-- From fewer ticks, a number whose step is no coarser than a tick is taken without rounding. -/
theorem roundInt_sub_of_le {n j m i : Nat} (hm : m < 2 ^ 53) (hi : i ≤ j)
    (hle : n * 2 ^ j ≤ m * 2 ^ i) (htop : m * 2 ^ i ≤ topUnits) :
    roundInt ((n * 2 ^ j : Nat) - (m * 2 ^ i : Nat)) =
      (n * 2 ^ j : Nat) - ((m * 2 ^ i : Nat) : Int) := by
  obtain ⟨l, rfl⟩ := Nat.exists_eq_add_of_le' hi
  have hticks : n * 2 ^ (l + i) = n * 2 ^ l * 2 ^ i := by
    rw [pow_add]
    ring
  rw [hticks] at hle ⊢
  have hmantissa : n * 2 ^ l ≤ m := Nat.le_of_mul_le_mul_right hle (by positivity)
  obtain ⟨r, rfl⟩ := Nat.exists_eq_add_of_le hmantissa
  have hdifference : ((n * 2 ^ l * 2 ^ i : Nat) : Int) - ((n * 2 ^ l + r) * 2 ^ i : Nat) =
      -(r * 2 ^ i : Nat) := by
    push_cast
    ring
  have hsmall : r * 2 ^ i ≤ topUnits := (Nat.mul_le_mul_right _ (Nat.le_add_left r _)).trans htop
  rw [hdifference, roundInt_neg, roundInt_natCast, roundUnits_mul (by omega), min_eq_left hsmall]

/-- `d` is fewer than `2 ^ 52` whole ticks of `2 ^ j` units, and `w` is not negative and is below
`2 ^ 53` ticks. -/
structure ClockTimes (j : Nat) (d w : Float) : Prop where
  ticks : ∃ n < 2 ^ 52, unitsOf d = (n * 2 ^ j : Nat)
  zero_le : 0 ≤ w
  lt : unitsOf w < (2 ^ 53 * 2 ^ j : Nat)

/-- Whole seconds are ticks of a clock for walks that are no longer than `2 ^ 52` seconds. -/
theorem clockTimes_ofNat {n : Nat} (hn : n < 2 ^ 52) {w : Float} (hzero : 0 ≤ w)
    (hw : w ≤ Scalar.ofNat (2 ^ 52)) : ClockTimes oneExponent (Scalar.ofNat n) w := by
  have hwhole : unitsOf (Scalar.ofNat n) = (n * 2 ^ oneExponent : Nat) :=
    unitsOf_ofNat (hn.trans (by decide))
  refine ⟨⟨n, hn, hwhole⟩, hzero, ?_⟩
  calc unitsOf w ≤ unitsOf (Scalar.ofNat (2 ^ 52)) := (float_le_iff.mp hw).2.2
    _ = (2 ^ 52 * 2 ^ oneExponent : Nat) := unitsOf_ofNat (by decide)
    _ < (2 ^ 53 * 2 ^ oneExponent : Nat) :=
      Int.ofNat_lt.mpr (Nat.mul_lt_mul_of_pos_right (by decide) (by positivity))

/-- The magnitude of a finite number that is not negative. -/
theorem exists_magnitude {w : Float} (hw : Scalar.isFinite w = true) (h : 0 ≤ unitsOf w) :
    ∃ m i : Nat, unitsOf w = (m * 2 ^ i : Nat) ∧ m < 2 ^ 53 ∧ (2 ^ 52 ≤ m ∨ i = 0) := by
  have hcanonical := canonical_unpacked w
  rw [float_isFinite] at hw
  rw [unitsOf] at h ⊢
  cases hx : unpacked w with
  | notANumber => rw [hx] at hw; cases hw
  | infinity s => rw [hx] at hw; cases hw
  | zero s => exact ⟨0, 0, rfl, by decide, .inr rfl⟩
  | finite s m e hm =>
    rw [hx] at h hcanonical
    have hpos := magnitude_pos (e := e) hm
    cases s with
    | negative =>
      simp only [units, Sign.apply] at h
      omega
    | positive =>
      refine ⟨m, (e + 1074).toNat, rfl, hcanonical.1.lt_top, hcanonical.1.leading.imp_right ?_⟩
      rintro rfl
      rfl

theorem ClockTimes.roundInt_le {j : Nat} {d w : Float} (h : ClockTimes j d w)
    (hw : Scalar.isFinite w = true) :
    roundInt (roundInt (unitsOf d - unitsOf w) + unitsOf w) ≤ unitsOf d := by
  obtain ⟨⟨n, hn, hd⟩, hzero, hlt⟩ := h
  obtain ⟨m, i, hm, hbound, hleading⟩ := exists_magnitude hw (float_le_iff.mp hzero).2.2
  rw [hd]
  rw [hm] at hlt ⊢
  rcases Nat.le_total (m * 2 ^ i) (n * 2 ^ j) with hle | hle
  · exact roundInt_sub_add_le hn hle
  · have hi : i ≤ j := by
      rcases hleading with hleading | rfl
      · have hpow : 2 ^ (52 + i) < 2 ^ (53 + j) := by
          calc 2 ^ (52 + i) = 2 ^ 52 * 2 ^ i := pow_add ..
            _ ≤ m * 2 ^ i := Nat.mul_le_mul_right _ hleading
            _ < 2 ^ 53 * 2 ^ j := Int.ofNat_lt.mp hlt
            _ = 2 ^ (53 + j) := (pow_add ..).symm
        have := (Nat.pow_lt_pow_iff_right Nat.one_lt_two).mp hpow
        omega
      · exact Nat.zero_le j
    have htop : m * 2 ^ i ≤ topUnits := by
      have := (units_bounds w).2
      rw [hm] at this
      exact Int.ofNat_le.mp this
    rw [roundInt_sub_of_le hbound hi hle htop, Int.sub_add_cancel, roundInt_natCast,
      roundUnits_mul (hn.trans (by decide))]
    exact Int.ofNat_le.mpr (min_le_left _ _)

/-! ## Coming back -/

/-- The difference of `d` and `w` is not rounded up, or both are times of a clock. -/
def ComesBack (d w : Float) : Prop :=
  unitsOf (d - w) ≤ unitsOf d - unitsOf w ∨ ∃ j, ClockTimes j d w

/-- A difference that comes back is not above the minuend when it is added again. -/
theorem float_sub_add_le {d w : Float} (hfinite : Scalar.isFinite (d - w) = true)
    (h : ComesBack d w) : d - w + w ≤ d := by
  obtain ⟨hd, hw⟩ := isFinite_of_isFinite_sub hfinite
  obtain ⟨hnumber, hsum⟩ := unitsOf_add hfinite hw
  refine float_le_iff.mpr ⟨hnumber, float_isNumber_of_isFinite hd, ?_⟩
  rw [hsum]
  rcases h with hdown | ⟨j, hclock⟩
  · calc roundInt (unitsOf (d - w) + unitsOf w) ≤ roundInt (unitsOf d) :=
          roundInt_mono (by omega)
      _ = unitsOf d := roundInt_units (canonical_unpacked d) hd
  · rw [unitsOf_sub hd hw]
    exact hclock.roundInt_le hw

end ZoneSkims
