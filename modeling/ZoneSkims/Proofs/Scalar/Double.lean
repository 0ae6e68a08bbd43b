import ZoneSkims.Proofs.Scalar.Addition
import ZoneSkims.Proofs.Scalar.Laws
import ZoneSkims.Proofs.Scalar.Signs
import ZoneSkims.Scalar.Binary

/-!
# The laws of double precision

Numbers in double precision compare as their units do, and a sum has the rounded sum of the units.
So they are lawful scalars: the laws are proved and not assumed.

* `float_le_iff`, `float_lt_iff`: comparison by units.
* `orderKey_lt`: the total order refines the comparison.
-/

namespace ZoneSkims

open Float.Model (Format UnpackedFloat)
open Float.Model.UnpackedFloat

/-! ## Comparison -/

/-- The number that a bit pattern stands for. -/
def unpacked (x : Float) : UnpackedFloat := unpack Format.binary64 x.toBits.toBitVec

/-- The units of a number. -/
def unitsOf (x : Float) : Int := units (unpacked x)

theorem canonical_unpacked (x : Float) : Canonical (unpacked x) := canonical_unpack _

theorem float_isNaN (x : Float) : Scalar.isNaN x = (unpacked x).isNaN := rfl

theorem float_isFinite (x : Float) : Scalar.isFinite x = (unpacked x).isFinite := rfl

theorem compare_of_isNaN {x y : UnpackedFloat} (h : x.isNaN = true ∨ y.isNaN = true) :
    x.compare y = none := by
  rcases h with h | h
  · cases x with
    | notANumber => rfl
    | infinity s => cases h
    | zero s => cases h
    | finite s m e hm => cases h
  · cases y with
    | notANumber => cases x <;> rfl
    | infinity s => cases h
    | zero s => cases h
    | finite s m e hm => cases h

/-- Numbers compare by their units, and what is undefined compares with nothing. -/
theorem compare_unpacked (a b : Float) (o : Ordering → Bool) :
    ((unpacked a).compare (unpacked b)).any o = true ↔
      Scalar.IsNumber a ∧ Scalar.IsNumber b ∧ o (compare (unitsOf a) (unitsOf b)) = true := by
  rw [Scalar.IsNumber, Scalar.IsNumber, float_isNaN, float_isNaN]
  cases ha : (unpacked a).isNaN with
  | true => simp [compare_of_isNaN (Or.inl ha)]
  | false =>
    cases hb : (unpacked b).isNaN with
    | true => simp [compare_of_isNaN (Or.inr hb)]
    | false =>
      rw [compare_eq (canonical_unpacked a) (canonical_unpacked b) ha hb]
      simp [unitsOf]

theorem float_le_iff {a b : Float} :
    a ≤ b ↔ Scalar.IsNumber a ∧ Scalar.IsNumber b ∧ unitsOf a ≤ unitsOf b := by
  have hdef : a ≤ b ↔ ((unpacked a).compare (unpacked b)).any (·.isLE) = true := by
    change (decide _ : Bool) = true ↔ _
    rw [decide_eq_true_iff]
    rfl
  rw [hdef, compare_unpacked, Std.isLE_compare]

theorem float_lt_iff {a b : Float} :
    a < b ↔ Scalar.IsNumber a ∧ Scalar.IsNumber b ∧ unitsOf a < unitsOf b := by
  have hdef : a < b ↔ ((unpacked a).compare (unpacked b)).any (· == .lt) = true := by
    change (decide _ : Bool) = true ↔ _
    rw [decide_eq_true_iff]
    change ((unpacked a).compare (unpacked b) == some .lt) = true ↔ _
    cases (unpacked a).compare (unpacked b) <;> simp
  rw [hdef, compare_unpacked, beq_iff_eq, compare_lt_iff_lt]

/-! ## Finite numbers -/

theorem units_infinity (s : Sign) : units (.infinity s) = s.apply topUnits := rfl

theorem units_bounds (x : Float) : -(topUnits : Int) ≤ unitsOf x ∧ unitsOf x ≤ topUnits := by
  have hpos := topUnits_pos
  have hx := canonical_unpacked x
  unfold unitsOf
  generalize unpacked x = y at hx
  cases y with
  | infinity s => cases s <;> simp only [units, Sign.apply] <;> omega
  | notANumber => simp only [units]; omega
  | zero s => simp only [units]; omega
  | finite s m e hm =>
    have := magnitude_lt_top hx.1 hx.2
    cases s <;> simp only [units, Sign.apply] <;> omega

theorem float_isFinite_iff {x : Float} (h : Scalar.IsNumber x) :
    Scalar.isFinite x = true ↔ -(topUnits : Int) < unitsOf x ∧ unitsOf x < topUnits := by
  have hpos := topUnits_pos
  have hx := canonical_unpacked x
  rw [Scalar.IsNumber, float_isNaN] at h
  rw [float_isFinite]
  unfold unitsOf
  generalize unpacked x = y at h hx
  cases y with
  | infinity s => cases s <;> simp [UnpackedFloat.isFinite, units, Sign.apply]
  | notANumber => cases h
  | zero s =>
    simp only [UnpackedFloat.isFinite, units, true_iff]
    omega
  | finite s m e hm =>
    have := magnitude_lt_top hx.1 hx.2
    cases s <;> simp only [UnpackedFloat.isFinite, units, Sign.apply, true_iff] <;> omega

theorem unpacked_infinity : unpacked Scalar.infinity = .infinity .positive := by
  rfl

theorem unpacked_neg_infinity : unpacked (-Scalar.infinity) = .infinity .negative := by
  rfl

theorem unpacked_zero : unpacked 0 = .zero .positive := by
  rfl

theorem unitsOf_zero : unitsOf 0 = 0 := by rw [unitsOf, unpacked_zero, units]

theorem unitsOf_pos {x : Float} (h : 0 < x) : 0 < unitsOf x := by
  have hlt := (float_lt_iff.mp h).2.2
  rwa [unitsOf_zero] at hlt

theorem ne_zero_of_pos {x : Float} (h : 0 < x) (s : Sign) : unpacked x ≠ .zero s := by
  intro hzero
  have hunits : unitsOf x = 0 := congrArg units hzero
  exact absurd (unitsOf_pos h) (by omega)

/-! ## The total order -/

theorem units_word (w : UInt64) (h : (unpack Format.binary64 w.toBitVec).isNaN = false) :
    units (unpack Format.binary64 w.toBitVec) =
      if w.toNat < 2 ^ 63 then (patternUnits w.toNat : Int)
      else -(patternUnits (w.toNat - 2 ^ 63) : Int) := by
  have hlt := w.toNat_lt
  let b : Word := w.toBitVec
  have hE : b.exponent = w.toNat / 2 ^ 52 % 2 ^ 11 := by
    change (w.toNat >>> 52) % 2 ^ 11 = _
    rw [Nat.shiftRight_eq_div_pow]
  have hM : b.mantissa = w.toNat % 2 ^ 52 := rfl
  have hsign : (unpackSign b).toNat = w.toNat / 2 ^ 63 := by
    change (w.toNat >>> 63) % 2 ^ 1 = _
    rw [Nat.shiftRight_eq_div_pow]
    omega
  have hs : b.sign = if w.toNat < 2 ^ 63 then .positive else .negative := by
    rw [Word.sign, Sign.ofBitVec]
    refine if_congr ?_ rfl rfl
    rw [← BitVec.toNat_inj, hsign]
    change _ = 0 ↔ _
    omega
  have hn : w.toNat / 2 ^ 52 % 2 ^ 11 * 2 ^ 52 + w.toNat % 2 ^ 52 = w.toNat % 2 ^ 63 := by omega
  have hunits := units_unpack b h
  change units (unpack Format.binary64 w.toBitVec) = _ at hunits
  rw [hunits, hs, hE, hM, hn]
  split_ifs with hneg
  · rw [Nat.mod_eq_of_lt hneg, Sign.apply]
  · rw [show w.toNat % 2 ^ 63 = w.toNat - 2 ^ 63 by omega, Sign.apply]

theorem unitsOf_eq {x : Float} (h : Scalar.IsNumber x) :
    unitsOf x =
      if x.toBits.toNat < 2 ^ 63 then (patternUnits x.toBits.toNat : Int)
      else -(patternUnits (x.toBits.toNat - 2 ^ 63) : Int) :=
  units_word x.toBits h

/-- The word for a number is read as that number. -/
theorem unpacked_ofBits (w : UInt64) :
    unpacked (Float.ofBits w) = unpack Format.binary64 w.toBitVec :=
  unpack_pack_of_canonical (canonical_unpack w.toBitVec)

theorem orderKey_toNat (x : Float) :
    (orderKey x).toNat =
      if x.toBits.toNat < 2 ^ 63 then x.toBits.toNat + 2 ^ 63 else 2 ^ 64 - 1 - x.toBits.toNat := by
  have hlt := x.toBits.toNat_lt
  have hsign : signBit.toNat = 2 ^ 63 := rfl
  unfold orderKey
  simp only [UInt64.lt_iff_toNat_lt, hsign]
  split_ifs with hneg
  · rw [UInt64.toNat_add, hsign]
    omega
  · rw [UInt64.toNat_not]
    rfl

/-- The total order refines the comparison. -/
theorem orderKey_lt {a b : Float} (h : a < b) : orderKey a < orderKey b := by
  obtain ⟨ha, hb, hlt⟩ := float_lt_iff.mp h
  rw [unitsOf_eq ha, unitsOf_eq hb] at hlt
  rw [UInt64.lt_iff_toNat_lt, orderKey_toNat, orderKey_toNat]
  have hbits := a.toBits.toNat_lt
  have hmono (m n : Nat) (h : patternUnits m < patternUnits n) : m < n :=
    patternUnits_strictMono.lt_iff_lt.mp h
  split_ifs at hlt ⊢ with ha' hb' hb'
  · have := hmono _ _ (Int.ofNat_lt.mp hlt)
    omega
  · omega
  · omega
  · have := hmono _ _ (Int.ofNat_lt.mp (Int.neg_lt_neg_iff.mp hlt))
    omega

theorem float_orderedLe_iff {a b : Float} :
    Scalar.orderedLe a b = true ↔ (orderKey a).toNat ≤ (orderKey b).toNat := by
  rw [← UInt64.le_iff_toNat_le]
  exact Std.isLE_compare

/-! ## Sums and differences -/

theorem unpacked_add (a b : Float) :
    unpacked (a + b) = unpack Format.binary64
      (pack Format.binary64 (add Format.binary64 (unpacked a) (unpacked b))) := rfl

theorem unitsOf_add {a b : Float} (ha : Scalar.isFinite a = true) (hb : Scalar.isFinite b = true) :
    Scalar.IsNumber (a + b) ∧ unitsOf (a + b) = roundInt (unitsOf a + unitsOf b) :=
  units_add (canonical_unpacked a) (canonical_unpacked b) ha hb

theorem float_isNumber_of_isFinite {a : Float} (h : Scalar.isFinite a = true) :
    Scalar.IsNumber a := by
  rw [float_isFinite] at h
  rw [Scalar.IsNumber, float_isNaN]
  cases hx : unpacked a <;> rw [hx] at h <;> trivial

/-- An infinite number stays as it is when a finite one is added. -/
theorem unpacked_add_of_infinite {a c : Float} {s : Sign} (ha : unpacked a = .infinity s)
    (hc : Scalar.isFinite c = true) : unpacked (a + c) = .infinity s := by
  rw [float_isFinite] at hc
  rw [unpacked_add, ha]
  cases hx : unpacked c with
  | infinity t => rw [hx] at hc; cases hc
  | notANumber => rw [hx] at hc; cases hc
  | zero t => exact unpack_pack_infinity s
  | finite t m e hm => exact unpack_pack_infinity s

theorem infinite_of_not_isFinite {a : Float} (ha : Scalar.IsNumber a)
    (hfin : ¬ Scalar.isFinite a = true) : ∃ s, unpacked a = .infinity s := by
  rw [Scalar.IsNumber, float_isNaN] at ha
  rw [float_isFinite] at hfin
  cases hx : unpacked a with
  | infinity s => exact ⟨s, rfl⟩
  | notANumber => rw [hx] at ha; cases ha
  | zero s => rw [hx] at hfin; exact absurd rfl hfin
  | finite s m e hm => rw [hx] at hfin; exact absurd rfl hfin

theorem unitsOf_infinite {a : Float} {s : Sign} (ha : unpacked a = .infinity s) :
    unitsOf a = s.apply topUnits := by
  rw [unitsOf, ha, units_infinity]

theorem unitsOf_add_of_infinite {a c : Float} (ha : Scalar.IsNumber a)
    (hfin : ¬ Scalar.isFinite a = true) (hc : Scalar.isFinite c = true) :
    Scalar.IsNumber (a + c) ∧ unitsOf (a + c) = unitsOf a := by
  obtain ⟨s, hs⟩ := infinite_of_not_isFinite ha hfin
  have hsum := unpacked_add_of_infinite hs hc
  refine ⟨?_, ?_⟩
  · rw [Scalar.IsNumber, float_isNaN, hsum]
    rfl
  · rw [unitsOf_infinite hs, unitsOf_infinite hsum]

theorem float_isNumber_add {a c : Float} (ha : Scalar.IsNumber a) (hc : Scalar.isFinite c = true) :
    Scalar.IsNumber (a + c) := by
  by_cases hfin : Scalar.isFinite a = true
  · exact (unitsOf_add hfin hc).1
  · exact (unitsOf_add_of_infinite ha hfin hc).1

/-- Adding a finite number keeps the order. -/
theorem float_add_le_add_right {a b c : Float} (hc : Scalar.isFinite c = true) (h : a ≤ b) :
    a + c ≤ b + c := by
  obtain ⟨ha, hb, hle⟩ := float_le_iff.mp h
  refine float_le_iff.mpr ⟨float_isNumber_add ha hc, float_isNumber_add hb hc, ?_⟩
  have hsum := units_bounds (a + c)
  have hsum' := units_bounds (b + c)
  have ha' := units_bounds a
  have hb' := units_bounds b
  have hfin := float_isFinite_iff ha
  have hfin' := float_isFinite_iff hb
  by_cases hafin : Scalar.isFinite a = true
  · have := hfin.mp hafin
    by_cases hbfin : Scalar.isFinite b = true
    · rw [(unitsOf_add hafin hc).2, (unitsOf_add hbfin hc).2]
      exact roundInt_mono (by omega)
    · rw [(unitsOf_add_of_infinite hb hbfin hc).2]
      rw [hfin'] at hbfin
      omega
  · rw [(unitsOf_add_of_infinite ha hafin hc).2]
    rw [hfin] at hafin
    by_cases hbfin : Scalar.isFinite b = true
    · have := hfin'.mp hbfin
      omega
    · rw [(unitsOf_add_of_infinite hb hbfin hc).2]
      exact hle

/-- What is not below zero has its sign, or is undefined. -/
theorem float_not_lt_zero_iff {a : Float} : ¬ a < 0 ↔ Unsigned (unpacked a) := by
  rw [unsigned_iff (canonical_unpacked a), float_lt_iff, unitsOf_zero, Scalar.IsNumber, float_isNaN]
  constructor
  · intro h
    cases hnan : (unpacked a).isNaN with
    | true => exact Or.inl rfl
    | false => exact Or.inr (Int.not_lt.mp fun hlt => h ⟨hnan, rfl, hlt⟩)
  · rintro (h | h) ⟨hnan, -, hlt⟩
    · rw [h] at hnan
      cases hnan
    · exact absurd hlt (Int.not_lt.mpr h)

/-- A sum with a term that is not finite is infinite or undefined, as the term is. -/
theorem unpacked_add_infinity {a c : Float} (hc : unpacked c = .infinity .positive)
    (h : Scalar.IsNumber (a + c)) : Scalar.IsNumber a ∧ unpacked (a + c) = .infinity .positive := by
  rw [Scalar.IsNumber, float_isNaN, unpacked_add, hc] at h
  rw [Scalar.IsNumber, float_isNaN, unpacked_add, hc]
  cases ha : unpacked a with
  | notANumber => rw [ha] at h; cases h
  | infinity s =>
    cases s with
    | negative => rw [ha] at h; cases h
    | positive => exact ⟨rfl, unpack_pack_infinity .positive⟩
  | zero s => exact ⟨rfl, unpack_pack_infinity .positive⟩
  | finite s m e hm => exact ⟨rfl, unpack_pack_infinity .positive⟩

theorem add_of_isNaN {x y : UnpackedFloat} (h : x.isNaN = true ∨ y.isNaN = true) :
    add Format.binary64 x y = .notANumber := by
  rcases h with h | h
  · cases x with
    | notANumber => rfl
    | infinity s => cases h
    | zero s => cases h
    | finite s m e hm => cases h
  · cases y with
    | notANumber => cases x <;> rfl
    | infinity s => cases h
    | zero s => cases h
    | finite s m e hm => cases h

theorem isNumber_of_isNumber_add {a c : Float} (h : Scalar.IsNumber (a + c)) :
    Scalar.IsNumber a ∧ Scalar.IsNumber c := by
  rw [Scalar.IsNumber, float_isNaN, unpacked_add] at h
  rw [Scalar.IsNumber, Scalar.IsNumber, float_isNaN, float_isNaN]
  constructor
  · refine Bool.eq_false_of_not_eq_true fun hnan => ?_
    rw [add_of_isNaN (Or.inl hnan), unpack_pack_notANumber] at h
    cases h
  · refine Bool.eq_false_of_not_eq_true fun hnan => ?_
    rw [add_of_isNaN (Or.inr hnan), unpack_pack_notANumber] at h
    cases h

/-- Adding what is not negative never lowers a number, if the sum is defined. -/
theorem float_le_add {a c : Float} (hsum : Scalar.IsNumber (a + c)) (h : ¬ c < 0) : a ≤ a + c := by
  obtain ⟨ha, hc⟩ := isNumber_of_isNumber_add hsum
  refine float_le_iff.mpr ⟨ha, hsum, ?_⟩
  have hunsigned := float_not_lt_zero_iff.mp h
  by_cases hcfin : Scalar.isFinite c = true
  · by_cases hafin : Scalar.isFinite a = true
    · have hle : 0 ≤ unitsOf c := by
        refine ((unsigned_iff (canonical_unpacked c)).mp hunsigned).resolve_left fun hnan => ?_
        rw [Scalar.IsNumber, float_isNaN, hnan] at hc
        cases hc
      calc unitsOf a = roundInt (unitsOf a) := (roundInt_units (canonical_unpacked a) hafin).symm
        _ ≤ roundInt (unitsOf a + unitsOf c) := roundInt_mono (by omega)
        _ = unitsOf (a + c) := (unitsOf_add hafin hcfin).2.symm
    · rw [(unitsOf_add_of_infinite ha hafin hcfin).2]
  · obtain ⟨s, hs⟩ := infinite_of_not_isFinite hc hcfin
    rw [hs] at hunsigned
    cases hunsigned
    rw [unitsOf_infinite (unpacked_add_infinity hs hsum).2]
    exact (units_bounds a).2

/-! ## Products, quotients and roots -/

theorem float_not_mul_lt_zero {a b : Float} (ha : ¬ a < 0) (hb : ¬ b < 0) : ¬ a * b < 0 := by
  rw [float_not_lt_zero_iff] at *
  exact unsigned_unpack_pack (unsigned_mul ha hb)

theorem float_not_div_lt_zero {a b : Float} (ha : ¬ a < 0) (hb : 0 < b) : ¬ a / b < 0 := by
  have hpos := unitsOf_pos hb
  have hunsigned : Unsigned (unpacked b) :=
    (unsigned_iff (canonical_unpacked b)).mpr (Or.inr hpos.le)
  rw [float_not_lt_zero_iff] at ha ⊢
  exact unsigned_unpack_pack (unsigned_div ha hunsigned (ne_zero_of_pos hb .negative))

theorem float_not_sqrt_lt_zero (a : Float) : ¬ Float.sqrt a < 0 := by
  rw [float_not_lt_zero_iff]
  exact unsigned_unpack_pack (unsigned_sqrt _)

theorem unpackedFloat_add_comm (f : Format) (x y : UnpackedFloat) : add f x y = add f y x := by
  cases x with
  | notANumber => cases y <;> rfl
  | infinity s =>
    cases y with
    | infinity t => cases s <;> cases t <;> rfl
    | notANumber => rfl
    | zero t => rfl
    | finite t m e hm => rfl
  | zero s =>
    cases y with
    | zero t => cases s <;> cases t <;> rfl
    | notANumber => rfl
    | infinity t => rfl
    | finite t m e hm => rfl
  | finite s m e hm =>
    cases y with
    | finite t m' e' hm' =>
      unfold add
      dsimp only
      rw [min_comm e e', Int.add_comm]
    | notANumber => rfl
    | infinity t => rfl
    | zero t => rfl

theorem float_add_comm (a b : Float) : a + b = b + a := by
  change Float.ofModel (Float.Model.pack _) = Float.ofModel (Float.Model.pack _)
  rw [unpackedFloat_add_comm]

/-! ## The laws -/

instance : LawfulScalar Float where
  isNumber_of_le h := ⟨(float_le_iff.mp h).1, (float_le_iff.mp h).2.1⟩
  le_total ha hb := by
    rw [float_le_iff, float_le_iff]
    rcases Int.le_total (unitsOf _) (unitsOf _) with h | h
    · exact Or.inl ⟨ha, hb, h⟩
    · exact Or.inr ⟨hb, ha, h⟩
  le_trans h h' := by
    obtain ⟨ha, -, hle⟩ := float_le_iff.mp h
    obtain ⟨-, hc, hle'⟩ := float_le_iff.mp h'
    exact float_le_iff.mpr ⟨ha, hc, hle.trans hle'⟩
  lt_iff := by
    intro a b
    rw [float_lt_iff, float_le_iff, float_le_iff]
    constructor
    · rintro ⟨ha, hb, h⟩
      exact ⟨⟨ha, hb, h.le⟩, fun ⟨_, _, h'⟩ => by omega⟩
    · rintro ⟨⟨ha, hb, -⟩, h⟩
      exact ⟨ha, hb, not_le.mp fun h' => h ⟨hb, ha, h'⟩⟩
  isFinite_iff := by
    intro a
    rw [float_lt_iff, float_lt_iff, unitsOf_infinite unpacked_infinity,
      unitsOf_infinite unpacked_neg_infinity]
    constructor
    · intro h
      have ha := float_isNumber_of_isFinite h
      obtain ⟨hlow, hhigh⟩ := (float_isFinite_iff ha).mp h
      exact ⟨⟨rfl, ha, hlow⟩, ha, rfl, hhigh⟩
    · rintro ⟨⟨-, ha, hlow⟩, -, -, hhigh⟩
      exact (float_isFinite_iff ha).mpr ⟨hlow, hhigh⟩
  isFinite_zero := rfl
  le_infinity := by
    intro a ha
    refine float_le_iff.mpr ⟨ha, rfl, ?_⟩
    rw [unitsOf_infinite unpacked_infinity]
    exact (units_bounds a).2
  neg_infinity_le := by
    intro a ha
    refine float_le_iff.mpr ⟨rfl, ha, ?_⟩
    rw [unitsOf_infinite unpacked_neg_infinity]
    exact (units_bounds a).1
  add_le_add_right := float_add_le_add_right
  add_comm := float_add_comm
  le_add := float_le_add
  isNumber_sub ha hb := isNaN_sub (canonical_unpacked _) (canonical_unpacked _) ha hb
  not_mul_lt_zero := float_not_mul_lt_zero
  not_div_lt_zero := float_not_div_lt_zero
  not_sqrt_lt_zero := float_not_sqrt_lt_zero
  order_transCmp :=
    { eq_swap := Std.OrientedOrd.eq_swap
      isLE_trans := Std.TransOrd.isLE_trans }
  not_lt_of_orderedLe := by
    intro a b h hlt
    rw [float_orderedLe_iff] at h
    exact absurd (UInt64.lt_iff_toNat_lt.mp (orderKey_lt hlt)) (Nat.not_lt.mpr h)

end ZoneSkims
