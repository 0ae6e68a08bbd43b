import Mathlib
import ZoneSkims.Proofs.Scalar.Rounding

/-!
# Numbers in units

Every finite number of double precision is a whole number of units, the least positive number. So
the format can be read as a set of whole numbers, with infinity at the first power of two that is
out of range.

* `units`: a number in units.
* `compare_eq`: numbers compare as their units do.
* `unpack_pack`: packing keeps a number, and what is out of range becomes infinite.
* `units_unpack`: the units of a bit pattern.
-/

namespace ZoneSkims

open Float.Model (Format)
open Float.Model.UnpackedFloat
open Float.Model (UnpackedFloat)

/-- The exponents above the least one, and one more. -/
@[irreducible] def topExponent : Nat := 2046

theorem topExponent_eq : topExponent = 2046 := by
  unfold topExponent
  rfl

/-- The units of infinity. -/
@[irreducible] def topUnits : Nat := 2 ^ 52 * 2 ^ topExponent

theorem topUnits_eq : topUnits = 2 ^ 52 * 2 ^ topExponent := by
  unfold topUnits
  rfl

theorem topUnits_pos : 0 < topUnits := by
  rw [topUnits_eq]
  positivity

/-- A number in units. What is undefined counts as none. -/
def units : UnpackedFloat → Int
  | .infinity s => s.apply topUnits
  | .notANumber => 0
  | .zero _ => 0
  | .finite s m e _ => s.apply ((m * 2 ^ (e + 1074).toNat : Nat) : Int)

/-- A mantissa and an exponent as double precision holds them, except that the exponent may be too
large. -/
structure Normal (m : Nat) (e : Int) : Prop where
  lt_top : m < 2 ^ 53
  exponent_ge : -1074 ≤ e
  leading : 2 ^ 52 ≤ m ∨ e = -1074

/-- The exponent is a whole number of steps above the least one. -/
theorem Normal.exists_exponent {m : Nat} {e : Int} (h : Normal m e) : ∃ j : Nat, e = -1074 + j := by
  have hge := h.exponent_ge
  exact ⟨(e + 1074).toNat, by omega⟩

theorem toNat_exponent (j : Nat) : (-1074 + (j : Int) + 1074).toNat = j := by
  omega

/-- A number of double precision. -/
def Canonical : UnpackedFloat → Prop
  | .finite _ m e _ => Normal m e ∧ e ≤ 971
  | _ => True

/-! ## Comparison -/

/-- The power above a magnitude, with 52 bits split off. -/
theorem Normal.magnitude_lt_pow {m : Nat} {e : Int} (h : Normal m e) :
    m * 2 ^ (e + 1074).toNat < 2 ^ 52 * 2 ^ ((e + 1074).toNat + 1) := by
  calc m * 2 ^ (e + 1074).toNat
      < 2 ^ 53 * 2 ^ (e + 1074).toNat := Nat.mul_lt_mul_of_pos_right h.lt_top (by positivity)
    _ = 2 ^ 52 * 2 ^ ((e + 1074).toNat + 1) := by rw [pow_succ]; ring

theorem magnitude_lt {m m' : Nat} {e e' : Int} (h : Normal m e) (h' : Normal m' e')
    (hlt : e < e') : m * 2 ^ (e + 1074).toNat < m' * 2 ^ (e' + 1074).toNat := by
  have hm' : 2 ^ 52 ≤ m' := h'.leading.resolve_right (by have := h.exponent_ge; omega)
  have hj : (e + 1074).toNat + 1 ≤ (e' + 1074).toNat := by
    have := h.exponent_ge
    omega
  exact h.magnitude_lt_pow.trans_le (Nat.mul_le_mul hm' (Nat.pow_le_pow_right (by decide) hj))

/-- Exponents are compared first, and then mantissas. -/
theorem compare_magnitude {m m' : Nat} {e e' : Int} (h : Normal m e) (h' : Normal m' e') :
    (compare e e').then (compare m m') =
      compare ((m * 2 ^ (e + 1074).toNat : Nat) : Int)
        ((m' * 2 ^ (e' + 1074).toNat : Nat) : Int) := by
  rcases lt_trichotomy e e' with hlt | rfl | hgt
  · rw [compare_lt_iff_lt.mpr hlt,
      compare_lt_iff_lt.mpr (Int.ofNat_lt.mpr (magnitude_lt h h' hlt))]
    rfl
  · rw [compare_eq_iff_eq.mpr rfl]
    have hpos : 0 < 2 ^ (e + 1074).toNat := by positivity
    rcases lt_trichotomy m m' with hlt | rfl | hgt
    · rw [compare_lt_iff_lt.mpr hlt,
        compare_lt_iff_lt.mpr (Int.ofNat_lt.mpr (Nat.mul_lt_mul_of_pos_right hlt hpos))]
      rfl
    · rw [compare_eq_iff_eq.mpr rfl, compare_eq_iff_eq.mpr rfl]
      rfl
    · rw [compare_gt_iff_gt.mpr hgt,
        compare_gt_iff_gt.mpr (Int.ofNat_lt.mpr (Nat.mul_lt_mul_of_pos_right hgt hpos))]
      rfl
  · rw [compare_gt_iff_gt.mpr hgt,
      compare_gt_iff_gt.mpr (Int.ofNat_lt.mpr (magnitude_lt h' h hgt))]
    rfl

theorem magnitude_lt_top {m : Nat} {e : Int} (h : Normal m e) (he : e ≤ 971) :
    m * 2 ^ (e + 1074).toNat < topUnits := by
  have hj : (e + 1074).toNat + 1 ≤ topExponent := by
    rw [topExponent_eq]
    omega
  calc m * 2 ^ (e + 1074).toNat
      < 2 ^ 52 * 2 ^ ((e + 1074).toNat + 1) := h.magnitude_lt_pow
    _ ≤ 2 ^ 52 * 2 ^ topExponent :=
        Nat.mul_le_mul_left _ (Nat.pow_le_pow_right (by decide) hj)
    _ = topUnits := topUnits_eq.symm

theorem top_le_magnitude {m : Nat} {e : Int} (h : Normal m e) (he : 971 < e) :
    topUnits ≤ m * 2 ^ (e + 1074).toNat := by
  have hm : 2 ^ 52 ≤ m := h.leading.resolve_right (by omega)
  have hj : topExponent ≤ (e + 1074).toNat := by
    rw [topExponent_eq]
    omega
  rw [topUnits_eq]
  exact Nat.mul_le_mul hm (Nat.pow_le_pow_right (by decide) hj)

theorem magnitude_pos {m : Nat} {e : Int} (h : 0 < m) : 0 < m * 2 ^ (e + 1074).toNat := by
  positivity

/-- Numbers compare as their units do. -/
theorem compare_eq {x y : UnpackedFloat} (hx : Canonical x) (hy : Canonical y)
    (hxn : x.isNaN = false) (hyn : y.isNaN = false) :
    x.compare y = some (compare (units x) (units y)) := by
  have htop := topUnits_pos
  have hneg (a b : Int) : (compare a b).swap = compare (-a) (-b) := by
    rcases lt_trichotomy a b with h | h | h
    · rw [compare_lt_iff_lt.mpr h, compare_gt_iff_gt.mpr (by omega)]; rfl
    · rw [compare_eq_iff_eq.mpr h, compare_eq_iff_eq.mpr (by omega)]; rfl
    · rw [compare_gt_iff_gt.mpr h, compare_lt_iff_lt.mpr (by omega)]; rfl
  have lt {a b : Int} (h : a < b) : compare a b = .lt := compare_lt_iff_lt.mpr h
  have gt {a b : Int} (h : b < a) : compare a b = .gt := compare_gt_iff_gt.mpr h
  cases x with
  | notANumber => simp [UnpackedFloat.isNaN] at hxn
  | infinity s =>
    cases y with
    | notANumber => simp [UnpackedFloat.isNaN] at hyn
    | infinity t =>
      cases s <;> cases t <;> simp only [UnpackedFloat.compare, units, Sign.apply] <;>
        congr 1 <;> symm
      · exact compare_eq_iff_eq.mpr rfl
      · exact lt (by omega)
      · exact gt (by omega)
      · exact compare_eq_iff_eq.mpr rfl
    | zero t =>
      cases s <;> simp only [UnpackedFloat.compare, units, Sign.apply] <;> congr 1 <;> symm
      · exact lt (by omega)
      · exact gt (by omega)
    | finite t m e hm =>
      have hlt := magnitude_lt_top hy.1 hy.2
      have hpos := magnitude_pos (e := e) hm
      cases s <;> cases t <;> simp only [UnpackedFloat.compare, units, Sign.apply] <;>
        congr 1 <;> symm
      · exact lt (by omega)
      · exact lt (by omega)
      · exact gt (by omega)
      · exact gt (by omega)
  | zero s =>
    cases y with
    | notANumber => simp [UnpackedFloat.isNaN] at hyn
    | infinity t =>
      cases t <;> simp only [UnpackedFloat.compare, units, Sign.apply] <;> congr 1 <;> symm
      · exact gt (by omega)
      · exact lt (by omega)
    | zero t =>
      simp only [UnpackedFloat.compare, units]
      rfl
    | finite t m e hm =>
      have hpos := magnitude_pos (e := e) hm
      cases t <;> simp only [UnpackedFloat.compare, units, Sign.apply] <;> congr 1 <;> symm
      · exact gt (by omega)
      · exact lt (by omega)
  | finite s m e hm =>
    have hpos := magnitude_pos (e := e) hm
    have hlt := magnitude_lt_top hx.1 hx.2
    cases y with
    | notANumber => simp [UnpackedFloat.isNaN] at hyn
    | infinity t =>
      cases t <;> simp only [UnpackedFloat.compare, units] <;> congr 1 <;> symm <;>
        cases s <;> simp only [Sign.apply]
      · exact gt (by omega)
      · exact gt (by omega)
      · exact lt (by omega)
      · exact lt (by omega)
    | zero t =>
      cases s <;> simp only [UnpackedFloat.compare, units, Sign.apply] <;> congr 1 <;> symm
      · exact lt (by omega)
      · exact gt (by omega)
    | finite t m' e' hm' =>
      have hpos' := magnitude_pos (e := e') hm'
      cases s <;> cases t <;> simp only [UnpackedFloat.compare, units, Sign.apply] <;> congr 1
      · rw [compare_magnitude hx.1 hy.1, hneg]
      · symm
        exact lt (by omega)
      · symm
        exact gt (by omega)
      · exact compare_magnitude hx.1 hy.1

/-! ## Bit patterns -/

/-- The fields of a bit pattern of double precision. -/
abbrev Word : Type := BitVec Format.binary64.numBits

def Word.exponent (b : Word) : Nat := (unpackExponent b).toNat

def Word.mantissa (b : Word) : Nat := (unpackMantissa b).toNat

def Word.sign (b : Word) : Sign := Sign.ofBitVec (unpackSign b)

theorem Word.exponent_lt (b : Word) : b.exponent < 2 ^ 11 := (unpackExponent b).isLt

theorem Word.mantissa_lt (b : Word) : b.mantissa < 2 ^ 52 := (unpackMantissa b).isLt

/-- What the fields of a bit pattern stand for. -/
inductive Unpacks (b : Word) : UnpackedFloat → Prop
  | infinity (hE : b.exponent = 2047) (hM : b.mantissa = 0) : Unpacks b (.infinity b.sign)
  | notANumber (hE : b.exponent = 2047) (hM : b.mantissa ≠ 0) : Unpacks b .notANumber
  | zero (hE : b.exponent = 0) (hM : b.mantissa = 0) : Unpacks b (.zero b.sign)
  | subnormal (hE : b.exponent = 0) (hM : 0 < b.mantissa) :
      Unpacks b (.finite b.sign b.mantissa (-1074) hM)
  | normal (hE : 0 < b.exponent) (hE' : b.exponent < 2047) (hM : 0 < 2 ^ 52 + b.mantissa) :
      Unpacks b (.finite b.sign (2 ^ 52 + b.mantissa) (b.exponent - 1075) hM)

theorem unpacks_unpack (b : Word) : Unpacks b (unpack Format.binary64 b) := by
  have hones : unpackExponent b = -1#_ ↔ b.exponent = 2047 := by
    rw [Word.exponent, ← BitVec.toNat_inj]
    rfl
  have hnone : unpackExponent b = 0#_ ↔ b.exponent = 0 := by
    rw [Word.exponent, ← BitVec.toNat_inj]
    rfl
  have hempty : unpackMantissa b = 0#_ ↔ b.mantissa = 0 := by
    rw [Word.mantissa, ← BitVec.toNat_inj]
    rfl
  unfold unpack
  dsimp only
  split_ifs with h1 h2 h3 h4
  · exact .infinity (hones.mp h1) (hempty.mp h2)
  · exact .notANumber (hones.mp h1) (fun h => h2 (hempty.mpr h))
  · exact .zero (hnone.mp h3) (hempty.mp h4)
  · have hpos : 0 < b.mantissa := Nat.pos_of_ne_zero fun h => h4 (hempty.mpr h)
    have hexp : ((unpackExponent b).toNat : Int) -
        (Format.binary64.exponentBias + Format.binary64.mantissaBitsWithoutImplicit) + 1 =
          -1074 := by
      rw [h3]
      rfl
    simp only [hexp]
    exact .subnormal (hnone.mp h3) hpos
  · have hpos : 0 < b.exponent := Nat.pos_of_ne_zero fun h => h3 (hnone.mpr h)
    have hlt : b.exponent < 2047 := by
      have := b.exponent_lt
      have : b.exponent ≠ 2047 := fun h => h1 (hones.mpr h)
      omega
    have hmant : (1#1 ++ unpackMantissa b).toNat = 2 ^ 52 + b.mantissa := by
      rw [BitVec.toNat_append, ← Nat.shiftLeft_add_eq_or_of_lt (unpackMantissa b).isLt]
      rfl
    simp only [hmant]
    exact .normal hpos hlt _

theorem canonical_unpack (b : Word) : Canonical (unpack Format.binary64 b) := by
  have hM := b.mantissa_lt
  have h := unpacks_unpack b
  generalize unpack Format.binary64 b = x at h
  cases h with
  | infinity => trivial
  | notANumber => trivial
  | zero => trivial
  | subnormal hE hpos => exact ⟨⟨by omega, by omega, Or.inr rfl⟩, by omega⟩
  | normal hE hE' hpos => exact ⟨⟨by omega, by omega, Or.inl (by omega)⟩, by omega⟩

/-- Packing keeps the sign, whatever the format. -/
theorem sign_packComponents {f : Format} (s : Sign) (E : BitVec f.exponentBits)
    (M : BitVec f.mantissaBitsWithoutImplicit) :
    Sign.ofBitVec (unpackSign (packComponents f s E M)) = s := by
  have hsign : unpackSign (packComponents f s E M) = s.toBitVec := by
    apply BitVec.eq_of_getLsbD_eq
    intro i hi
    obtain rfl : i = 0 := by omega
    simp [unpackSign, packComponents, BitVec.getLsbD_append, BitVec.getElem_append]
  rw [hsign]
  cases s <;> rfl

section Fields

variable (s : Sign) (E : BitVec 11) (M : BitVec 52)

/-- The bit pattern of three fields. -/
def Word.ofFields : Word := packComponents Format.binary64 s E M

theorem exponent_ofFields : (Word.ofFields s E M).exponent = E.toNat :=
  congrArg BitVec.toNat unpackExponent_packComponents

theorem mantissa_ofFields : (Word.ofFields s E M).mantissa = M.toNat :=
  congrArg BitVec.toNat unpackMantissa_packComponents

theorem sign_ofFields : (Word.ofFields s E M).sign = s :=
  @sign_packComponents Format.binary64 s E M

theorem unpack_ofFields_infinity :
    unpack Format.binary64 (Word.ofFields s (-1#11) 0#52) = .infinity s := by
  have hE : (Word.ofFields s (-1#11) 0#52).exponent = 2047 := exponent_ofFields s _ _
  have hM : (Word.ofFields s (-1#11) 0#52).mantissa = 0 := mantissa_ofFields s _ _
  have hs := sign_ofFields s (-1#11) 0#52
  have h := unpacks_unpack (Word.ofFields s (-1#11) 0#52)
  generalize unpack Format.binary64 (Word.ofFields s (-1#11) 0#52) = x at h
  cases h with
  | infinity => rw [hs]
  | notANumber _ hM' => exact absurd hM hM'
  | zero hE' => omega
  | subnormal hE' => omega
  | normal hE' hE'' => omega

theorem unpack_ofFields_subnormal {m : Nat} (hm : 0 < m) (hM : M.toNat = m) :
    unpack Format.binary64 (Word.ofFields s 0#11 M) = .finite s m (-1074) hm := by
  have hE : (Word.ofFields s 0#11 M).exponent = 0 := exponent_ofFields s _ _
  have hM' := mantissa_ofFields s 0#11 M
  have hs := sign_ofFields s 0#11 M
  have h := unpacks_unpack (Word.ofFields s 0#11 M)
  generalize unpack Format.binary64 (Word.ofFields s 0#11 M) = x at h
  cases h with
  | infinity hE' => omega
  | notANumber hE' => omega
  | zero _ hM'' => omega
  | subnormal _ hM'' => simp only [hs, hM', hM]
  | normal hE' => omega

theorem unpack_ofFields_normal {m : Nat} {e : Int} (hm : 0 < m) (hE : 0 < E.toNat)
    (hE' : E.toNat < 2047) (hM : 2 ^ 52 + M.toNat = m) (he : (E.toNat : Int) - 1075 = e) :
    unpack Format.binary64 (Word.ofFields s E M) = .finite s m e hm := by
  have hE'' := exponent_ofFields s E M
  have hM' := mantissa_ofFields s E M
  have hs := sign_ofFields s E M
  have h := unpacks_unpack (Word.ofFields s E M)
  generalize unpack Format.binary64 (Word.ofFields s E M) = x at h
  cases h with
  | infinity => omega
  | notANumber => omega
  | zero => omega
  | subnormal => omega
  | normal => simp only [hs, hM', hE'', hM, he]

end Fields

/-- Packing keeps a number, and what is out of range becomes infinite. -/
theorem unpack_pack_finite {s : Sign} {m : Nat} {e : Int} (hm : 0 < m) (h : Normal m e) :
    unpack Format.binary64 (pack Format.binary64 (.finite s m e hm)) =
      if e ≤ 971 then .finite s m e hm else .infinity s := by
  obtain ⟨hm53, he, hlead⟩ := h
  have hbias : (e + Format.binary64.exponentBias +
      Format.binary64.mantissaBitsWithoutImplicit).toNat = (e + 1075).toNat := by
    congr 1
    change e + 1023 + 52 = _
    omega
  have hlog : m.log2 + 1 = Format.binary64.mantissaBits ↔ 2 ^ 52 ≤ m := by
    have hlt : m.log2 < 53 := (Nat.log2_lt hm.ne').mpr hm53
    have hle : 52 ≤ m.log2 ↔ 2 ^ 52 ≤ m := Nat.le_log2 hm.ne'
    change m.log2 + 1 = 53 ↔ _
    omega
  have hover : 2 ^ Format.binary64.exponentBits ≤ (e + 1075).toNat + 1 ↔ ¬ e ≤ 971 := by
    change 2 ^ 11 ≤ _ ↔ _
    omega
  unfold pack
  simp only [hbias, hlog, hover]
  by_cases h971 : e ≤ 971
  · rw [if_neg (not_not.mpr h971), if_pos h971]
    have hexp : (BitVec.ofNat 11 (e + 1075).toNat).toNat = (e + 1075).toNat := by
      rw [BitVec.toNat_ofNat, Nat.mod_eq_of_lt (by omega)]
    have hmant : (BitVec.ofNat 52 m).toNat = m % 2 ^ 52 := BitVec.toNat_ofNat m 52
    by_cases hnormal : 2 ^ 52 ≤ m
    · rw [if_pos hnormal]
      exact unpack_ofFields_normal s _ _ hm (by omega) (by omega) (by omega) (by omega)
    · rw [if_neg hnormal]
      obtain rfl : e = -1074 := hlead.resolve_left hnormal
      exact unpack_ofFields_subnormal s _ hm (by omega)
  · rw [if_pos h971, if_neg h971]
    exact unpack_ofFields_infinity s

theorem unpack_pack_infinity (s : Sign) :
    unpack Format.binary64 (pack Format.binary64 (.infinity s)) = .infinity s :=
  unpack_ofFields_infinity s

theorem unpack_pack_zero {f : Format} (s : Sign) : unpack f (pack f (.zero s)) = .zero s := by
  have hwidth : 1 < 2 ^ f.exponentBits := Nat.one_lt_two_pow f.he.ne'
  have hones : (0 : BitVec f.exponentBits) ≠ -1#_ := by
    intro heq
    have hn := congrArg BitVec.toNat heq
    simp [BitVec.neg_one_eq_allOnes] at hn
    omega
  simp only [pack, packedZero, unpack, unpackMantissa_packComponents, unpackExponent_packComponents,
    sign_packComponents]
  rw [if_neg hones]
  rfl

theorem unpack_pack_notANumber :
    unpack Format.binary64 (pack Format.binary64 .notANumber) = .notANumber := by
  rfl

/-- A number of the format is packed without loss. -/
theorem unpack_pack_of_canonical {x : UnpackedFloat} (h : Canonical x) :
    unpack Format.binary64 (pack Format.binary64 x) = x := by
  cases x with
  | infinity s => exact unpack_pack_infinity s
  | notANumber => exact unpack_pack_notANumber
  | zero s => exact unpack_pack_zero s
  | finite s m e hm => rw [unpack_pack_finite hm h.1, if_pos h.2]

/-! ## Units of a bit pattern -/

/-- The units of a bit pattern without its sign. -/
def patternUnits (n : Nat) : Nat :=
  if n / 2 ^ 52 = 0 then n % 2 ^ 52 else (2 ^ 52 + n % 2 ^ 52) * 2 ^ (n / 2 ^ 52 - 1)

/-- The units ascend with the bit pattern. -/
theorem patternUnits_strictMono : StrictMono patternUnits := by
  intro a b hab
  have hdiv : a / 2 ^ 52 ≤ b / 2 ^ 52 := Nat.div_le_div_right hab.le
  have hda := Nat.div_add_mod a (2 ^ 52)
  have hdb := Nat.div_add_mod b (2 ^ 52)
  have hma := Nat.mod_lt a (Nat.two_pow_pos 52)
  have hmb := Nat.mod_lt b (Nat.two_pow_pos 52)
  unfold patternUnits
  generalize a / 2 ^ 52 = ea at *
  generalize b / 2 ^ 52 = eb at *
  generalize a % 2 ^ 52 = fa at *
  generalize b % 2 ^ 52 = fb at *
  rcases hdiv.eq_or_lt with rfl | hlt
  · split_ifs with h0
    · omega
    · exact Nat.mul_lt_mul_of_pos_right (by omega) (Nat.two_pow_pos _)
  · rw [if_neg (show eb ≠ 0 by omega)]
    have hright : 2 ^ 52 * 2 ^ (eb - 1) ≤ (2 ^ 52 + fb) * 2 ^ (eb - 1) :=
      Nat.mul_le_mul_right _ (by omega)
    split_ifs with h0
    · calc fa < 2 ^ 52 * 1 := by omega
        _ ≤ 2 ^ 52 * 2 ^ (eb - 1) := Nat.mul_le_mul_left _ (Nat.two_pow_pos _)
        _ ≤ _ := hright
    · calc (2 ^ 52 + fa) * 2 ^ (ea - 1)
          < 2 ^ 53 * 2 ^ (ea - 1) := Nat.mul_lt_mul_of_pos_right (by omega) (Nat.two_pow_pos _)
        _ = 2 ^ 52 * 2 ^ (ea - 1 + 1) := by rw [pow_succ]; ring
        _ ≤ 2 ^ 52 * 2 ^ (eb - 1) :=
            Nat.mul_le_mul_left _ (Nat.pow_le_pow_right (by decide) (by omega))
        _ ≤ _ := hright

theorem units_unpack (b : Word) (h : (unpack Format.binary64 b).isNaN = false) :
    units (unpack Format.binary64 b) =
      b.sign.apply (patternUnits (b.exponent * 2 ^ 52 + b.mantissa)) := by
  have hM := b.mantissa_lt
  have hdiv : (b.exponent * 2 ^ 52 + b.mantissa) / 2 ^ 52 = b.exponent := by omega
  have hmod : (b.exponent * 2 ^ 52 + b.mantissa) % 2 ^ 52 = b.mantissa := by omega
  have hunp := unpacks_unpack b
  generalize unpack Format.binary64 b = x at h hunp
  unfold patternUnits
  rw [hdiv, hmod]
  cases hunp with
  | infinity hE hM' =>
    rw [if_neg (by omega), hE, hM', units, topUnits_eq, topExponent_eq, Nat.add_zero]
  | notANumber => cases h
  | zero hE hM' =>
    rw [if_pos hE, hM', units]
    cases b.sign <;> rfl
  | subnormal hE hpos =>
    rw [if_pos hE, units]
    simp
  | normal hE hE' hpos =>
    rw [if_neg (by omega), units]
    congr 4
    omega

end ZoneSkims
