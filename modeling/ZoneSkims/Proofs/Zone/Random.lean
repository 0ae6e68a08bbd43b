import ZoneSkims.Proofs.Scalar.Product
import ZoneSkims.Zone.Random

/-!
# Draws of the generator

A draw of a fraction is below its total although the last product is rounded. The scale is chosen so
that the largest fraction of 1 stays below the total, and rounded products ascend with their factors,
so every other fraction stays below it too. The first scale is the total, and at most one step down
is needed, as a factor below 1 makes no number greater.

* `DrawSource.Lawful`: what sampling asks of the draws.
* `Generator.scaleBelow_spec`: the scale of a total.
* `Generator.lawful_source`: the generator draws in that way, whatever its state.
-/

namespace ZoneSkims

open Float.Model (Format UnpackedFloat)
open Float.Model.UnpackedFloat

/-- Fractions are at least 0 and below their total, and positions are below their count. -/
structure DrawSource.Lawful {α γ : Type} [Scalar α] (source : DrawSource α γ) : Prop where
  fraction_nonneg {total : α} (state : γ) :
    Scalar.isFinite total = true → 0 < total → 0 ≤ (source.fraction total state).1
  fraction_lt {total : α} (state : γ) :
    Scalar.isFinite total = true → 0 < total → (source.fraction total state).1 < total
  index_lt {count : Nat} (state : γ) : 0 < count → (source.index count state).1 < count

namespace Generator

theorem unitsOf_largestFraction : unitsOf largestFraction = (2 ^ 52 - 1) * 2 ^ 1022 := by
  decide +kernel

theorem isFinite_largestFraction : Scalar.isFinite largestFraction = true := by
  decide +kernel

/-- The bit pattern of a positive number is between those of 0 and infinity. -/
theorem toBits_of_pos {x : Float} (hx : Scalar.isFinite x = true) (h0 : 0 < unitsOf x) :
    0 < x.toBits.toNat ∧ x.toBits.toNat < 2047 * 2 ^ 52 ∧
      unitsOf x = patternUnits x.toBits.toNat := by
  have hnumber := float_isNumber_of_isFinite hx
  have hunits := unitsOf_eq hnumber
  have hsign : x.toBits.toNat < 2 ^ 63 := by
    by_contra hneg
    rw [if_neg hneg] at hunits
    omega
  rw [if_pos hsign] at hunits
  refine ⟨?_, ?_, hunits⟩
  · refine Nat.pos_of_ne_zero fun hzero => ?_
    rw [hzero, show patternUnits 0 = 0 from rfl] at hunits
    omega
  · have htop := ((float_isFinite_iff hnumber).mp hx).2
    have hpattern : patternUnits (2047 * 2 ^ 52) = topUnits := by
      rw [topUnits_eq, topExponent_eq, patternUnits, Nat.mul_div_cancel _ (by decide),
        Nat.mul_mod_left, if_neg (by decide), Nat.add_zero]
    rw [hunits, ← hpattern] at htop
    exact patternUnits_strictMono.lt_iff_lt.mp (Int.ofNat_lt.mp htop)

/-- Bit patterns below that of infinity are numbers without a sign. -/
theorem unitsOf_ofBits {word : UInt64} (h : word.toNat < 2047 * 2 ^ 52) :
    Scalar.IsNumber (Float.ofBits word) ∧
      unitsOf (Float.ofBits word) = patternUnits word.toNat := by
  have hnan : (unpack Format.binary64 word.toBitVec).isNaN = false := by
    rw [← Bool.not_eq_true, isNaN_unpack]
    rintro ⟨hexponent, -⟩
    have hE := congrArg BitVec.toNat hexponent
    change (word.toNat >>> 52) % 2 ^ 11 = 2047 at hE
    rw [Nat.shiftRight_eq_div_pow] at hE
    omega
  constructor
  · rw [Scalar.IsNumber, float_isNaN, unpacked_ofBits, hnan]
  · rw [unitsOf, unpacked_ofBits, units_word _ hnan, if_pos (by omega)]

/-- The number before a positive one is less, and not negative. -/
theorem unitsOf_justBelow {x : Float} (hx : Scalar.isFinite x = true) (h0 : 0 < unitsOf x) :
    Scalar.isFinite (justBelow x) = true ∧ 0 ≤ unitsOf (justBelow x) ∧
      unitsOf (justBelow x) < unitsOf x := by
  obtain ⟨hpos, htop, hunits⟩ := toBits_of_pos hx h0
  have hword : (x.toBits - 1).toNat = x.toBits.toNat - 1 :=
    UInt64.toNat_sub_of_le _ _ (UInt64.le_iff_toNat_le.mpr hpos)
  obtain ⟨hnumber, hbelow⟩ : Scalar.IsNumber (justBelow x) ∧
      unitsOf (justBelow x) = patternUnits (x.toBits - 1).toNat := unitsOf_ofBits (by omega)
  rw [hword] at hbelow
  have hlt : patternUnits (x.toBits.toNat - 1) < patternUnits x.toBits.toNat :=
    patternUnits_strictMono (by omega)
  have hbounds := (float_isFinite_iff (float_isNumber_of_isFinite hx)).mp hx
  refine ⟨(float_isFinite_iff hnumber).mpr ?_, ?_, ?_⟩ <;> omega

/-- The scale is at most the total, and scales the largest fraction below it. -/
theorem scaleBelow_spec {total : Float} (hfinite : Scalar.isFinite total = true)
    (hpos : 0 < unitsOf total) (steps : Nat) :
    Scalar.isFinite (scaleBelow total (steps + 1) total) = true ∧
      0 ≤ unitsOf (scaleBelow total (steps + 1) total) ∧
        unitsOf (scaleBelow total (steps + 1) total * largestFraction) < unitsOf total := by
  have hlargest : 0 ≤ unitsOf largestFraction := by decide +kernel
  have hone : unitsOf largestFraction ≤ 2 ^ oneExponent := by
    rw [unitsOf_largestFraction, oneExponent_eq]
    decide +kernel
  have hstop {scale : Float} (hscale : Scalar.isFinite scale = true) (h0 : 0 ≤ unitsOf scale) :
      total ≤ scale * largestFraction ↔ unitsOf total ≤ unitsOf (scale * largestFraction) := by
    rw [float_le_iff]
    exact ⟨fun h => h.2.2, fun h => ⟨float_isNumber_of_isFinite hfinite,
      (unitsOf_mul hscale isFinite_largestFraction h0 hlargest).1, h⟩⟩
  rw [scaleBelow]
  split_ifs with hle
  · obtain ⟨hfinite', h0', hlt⟩ := unitsOf_justBelow hfinite hpos
    have hbelow : unitsOf (justBelow total * largestFraction) < unitsOf total :=
      Int.lt_of_le_of_lt
        (unitsOf_mul_le_left hfinite' isFinite_largestFraction h0' hlargest hone) hlt
    have hend : scaleBelow total steps (justBelow total) = justBelow total := by
      cases steps with
      | zero => rfl
      | succ steps =>
        rw [scaleBelow, if_neg]
        rw [hstop hfinite' h0']
        omega
    rw [hend]
    exact ⟨hfinite', h0', hbelow⟩
  · rw [hstop hfinite hpos.le] at hle
    exact ⟨hfinite, hpos.le, by omega⟩

/-- The fractions of 1 that a word gives. -/
theorem unitsOf_wordFraction {word : UInt64} (h : word.toNat < 2 ^ 52) :
    Scalar.isFinite (word.toFloat * Float.ofBits 0x3CB0000000000000) = true ∧
      0 ≤ unitsOf (word.toFloat * Float.ofBits 0x3CB0000000000000) ∧
        unitsOf (word.toFloat * Float.ofBits 0x3CB0000000000000) ≤ unitsOf largestFraction := by
  have hlimit : (2 : Nat) ^ 52 < Scalar.exactLimit := by decide
  obtain ⟨hfinite, hunits⟩ := unitsOf_toFloat (h.trans hlimit)
  obtain ⟨hfinite', hunits'⟩ := unitsOf_toFloat (show (4503599627370495 : UInt64).toNat <
    Scalar.exactLimit by decide)
  have hstep : Scalar.isFinite (Float.ofBits 0x3CB0000000000000) = true := by decide +kernel
  have hstep0 : 0 ≤ unitsOf (Float.ofBits 0x3CB0000000000000) := by decide +kernel
  have hlast : unitsOf ((4503599627370495 : UInt64).toFloat * Float.ofBits 0x3CB0000000000000) =
      unitsOf largestFraction := by decide +kernel
  have hle : word.toNat ≤ (4503599627370495 : UInt64).toNat := by
    rw [show (4503599627370495 : UInt64).toNat = 2 ^ 52 - 1 from rfl]
    omega
  obtain ⟨hnumber, hproduct⟩ := unitsOf_mul hfinite hstep (by omega) hstep0
  have hmono : unitsOf (word.toFloat * Float.ofBits 0x3CB0000000000000) ≤
      unitsOf largestFraction := by
    rw [← hlast]
    apply unitsOf_mul_le hfinite hstep hfinite' hstep (by omega) hstep0 (by omega) hstep0
    rw [hunits, hunits']
    exact Int.mul_le_mul_of_nonneg_right (Int.ofNat_le.mpr (Nat.mul_le_mul_right _ hle)) hstep0
  have hbounds := (float_isFinite_iff (float_isNumber_of_isFinite isFinite_largestFraction)).mp
    isFinite_largestFraction
  refine ⟨(float_isFinite_iff hnumber).mpr ⟨?_, ?_⟩, ?_, hmono⟩ <;> omega

/-- The fraction of a total is below it. -/
theorem fraction_lt {total : Float} (hfinite : Scalar.isFinite total = true) (hpos : 0 < total)
    (g : Generator) : 0 ≤ (fraction total g).1 ∧ (fraction total g).1 < total := by
  obtain ⟨hscale, hscale0, hbelow⟩ := scaleBelow_spec hfinite (unitsOf_pos hpos) 63
  have hword : (g.next.1 >>> 12).toNat < 2 ^ 52 := by
    have hlt := g.next.1.toNat_lt
    rw [UInt64.toNat_shiftRight]
    change g.next.1.toNat >>> 12 < 2 ^ 52
    rw [Nat.shiftRight_eq_div_pow]
    omega
  obtain ⟨hpart, hpart0, hpart1⟩ := unitsOf_wordFraction hword
  obtain ⟨hnumber, hproduct⟩ := unitsOf_mul hpart hscale hpart0 hscale0
  have hlargest : 0 ≤ unitsOf largestFraction := hpart0.trans hpart1
  have hle := unitsOf_mul_le hpart hscale hscale isFinite_largestFraction hpart0 hscale0 hscale0
    hlargest (by rw [Int.mul_comm]; exact Int.mul_le_mul_of_nonneg_left hpart1 hscale0)
  constructor
  · refine float_le_iff.mpr ⟨float_isNumber_of_isFinite rfl, hnumber, ?_⟩
    rw [unitsOf_zero, fraction, hproduct]
    omega
  · exact float_lt_iff.mpr ⟨hnumber, float_isNumber_of_isFinite hfinite, hle.trans_lt hbelow⟩

theorem indexWithin_lt {count : Nat} (h : 0 < count) (attempts : Nat) (g : Generator) :
    (indexWithin count attempts g).1 < count := by
  have hword (word : UInt64) : word.toNat * count / UInt64.size < count := by
    rw [Nat.div_lt_iff_lt_mul (by decide), Nat.mul_comm]
    exact Nat.mul_lt_mul_of_pos_left word.toNat_lt h
  induction attempts generalizing g with
  | zero => exact hword _
  | succ attempts ih =>
    rw [indexWithin]
    dsimp only
    split_ifs
    · exact hword _
    · exact ih _

/-- Every state of the generator draws fractions below their total and positions below their
count. -/
theorem lawful_source : source.Lawful where
  fraction_nonneg state hfinite hpos := (fraction_lt hfinite hpos state).1
  fraction_lt state hfinite hpos := (fraction_lt hfinite hpos state).2
  index_lt state hcount := indexWithin_lt hcount 1024 state

end Generator

end ZoneSkims
