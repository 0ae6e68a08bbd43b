import Mathlib.Algebra.Order.Field.Basic
import Mathlib.Data.Nat.Find
import Mathlib.Data.Rat.Cast.OfScientific
import ZoneSkims.Proofs.Scalar.Single

/-!
# Exact arithmetic

The numbers of an ordered field with two infinities and an undefined value, as they are in floating
point, but without any rounding. Calculations over them are calculations in exact arithmetic. There
is only one 0, and a quotient by it is infinite with the sign of the dividend.

* `Exact`: the scalars, which keep all laws of rounded arithmetic.
* `Exact.finite_mul`, `Exact.finite_div`: calculations with numbers.
-/

namespace ZoneSkims

/-- Numbers without rounding. -/
inductive Exact (K : Type) where
  | undefined
  /-- Less than all numbers. -/
  | below
  | finite (x : K)
  /-- Greater than all numbers. -/
  | above
  deriving DecidableEq

namespace Exact

variable {K : Type} [Field K] [LinearOrder K]

/-! ## Operations -/

def add : Exact K → Exact K → Exact K
  | finite x, finite y => finite (x + y)
  | undefined, _ | _, undefined | below, above | above, below => undefined
  | below, _ | _, below => below
  | above, _ | _, above => above

def neg : Exact K → Exact K
  | undefined => undefined
  | below => above
  | finite x => finite (-x)
  | above => below

/-- An infinity with the sign of a number, and undefined without one. -/
def infinityOf (x : K) : Exact K :=
  if 0 < x then above else if x < 0 then below else undefined

/-- The sign, as a number of the field. -/
def sign : Exact K → K
  | undefined => 0
  | below => -1
  | finite x => x
  | above => 1

def mul : Exact K → Exact K → Exact K
  | finite x, finite y => finite (x * y)
  | undefined, _ | _, undefined => undefined
  | a, b => infinityOf (a.sign * b.sign)

/-- A quotient by an infinity is 0, and one by 0 infinite. -/
def div : Exact K → Exact K → Exact K
  | undefined, _ | _, undefined | below, below | below, above | above, below | above, above =>
    undefined
  | finite _, below | finite _, above => finite 0
  | finite x, finite y => if y = 0 then infinityOf x else finite (x / y)
  | a, finite y => infinityOf (a.sign * if y < 0 then -1 else 1)

def le : Exact K → Exact K → Bool
  | finite x, finite y => decide (x ≤ y)
  | below, below | below, finite _ | below, above | finite _, above | above, above => true
  | _, _ => false

/-- The place in the total order, before numbers are compared. -/
def rank : Exact K → Nat
  | below => 0
  | finite _ => 1
  | above => 2
  | undefined => 3

open Classical in
/-- The root that is not negative, where there is one. -/
noncomputable def sqrt : Exact K → Exact K
  | undefined | below => undefined
  | finite x => if h : ∃ y, 0 ≤ y ∧ y * y = x then finite h.choose else undefined
  | above => above

/-- The whole part of a number. -/
def truncate : Exact K → Nat
  | undefined | below => 0
  | finite x => Nat.findGreatest (fun n => (n : K) ≤ x) wordMax
  | above => wordMax

def abs : Exact K → Exact K
  | undefined => undefined
  | below | above => above
  | finite x => finite |x|

def isDefined : Exact K → Bool
  | undefined => false
  | _ => true

def isNumber : Exact K → Bool
  | finite _ => true
  | _ => false

noncomputable instance : Scalar (Exact K) where
  zero := finite 0
  add := add
  sub a b := add a (neg b)
  mul := mul
  div := div
  neg := neg
  lt a b := le b a = false ∧ le a b = true
  le a b := le a b = true
  beq a b := le a b && le b a
  ofScientific m s e := finite (OfScientific.ofScientific m s e)
  decLt _ _ := inferInstanceAs (Decidable (_ ∧ _))
  decLe _ _ := inferInstanceAs (Decidable (_ = _))
  ofNat n := finite n
  truncate := truncate
  sqrt := sqrt
  abs := abs
  infinity := above
  isNaN a := !isDefined a
  isFinite := isNumber
  order := compareLex (compareOn rank) (compareOn sign)

/-! ## Numbers -/

theorem finite_mul (x y : K) : (finite x * finite y : Exact K) = finite (x * y) := rfl

theorem finite_div (x : K) {y : K} (hy : y ≠ 0) :
    (finite x / finite y : Exact K) = finite (x / y) :=
  if_neg hy

theorem finite_ofNat (n : Nat) : (Scalar.ofNat n : Exact K) = finite (n : K) := rfl

theorem finite_le {x y : K} : (finite x : Exact K) ≤ finite y ↔ x ≤ y := decide_eq_true_iff

theorem eq_finite_of_isFinite {a : Exact K} (h : Scalar.isFinite a = true) :
    ∃ x, a = finite x := by
  cases a with
  | finite x => exact ⟨x, rfl⟩
  | undefined => cases h
  | below => cases h
  | above => cases h

theorem finite_sub (x y : K) : (finite x - finite y : Exact K) = finite (x - y) :=
  congrArg finite (sub_eq_add_neg x y).symm

theorem isFinite_add {a b : Exact K} (ha : Scalar.isFinite a = true)
    (hb : Scalar.isFinite b = true) : Scalar.isFinite (a + b) = true := by
  obtain ⟨x, rfl⟩ := eq_finite_of_isFinite ha
  obtain ⟨y, rfl⟩ := eq_finite_of_isFinite hb
  rfl

theorem add_sub_self {a b : Exact K} (ha : Scalar.isFinite a = true)
    (hb : Scalar.isFinite b = true) : a + (b - a) = b := by
  obtain ⟨x, rfl⟩ := eq_finite_of_isFinite ha
  obtain ⟨y, rfl⟩ := eq_finite_of_isFinite hb
  rw [finite_sub]
  exact congrArg finite (add_sub_cancel x y)

theorem eq_of_beq {a b : Exact K} (h : (a == b) = true) : a = b := by
  obtain ⟨hle, hge⟩ := (Bool.and_eq_true _ _).mp h
  cases a <;> cases b
  case finite.finite x y =>
    exact congrArg finite (le_antisymm (of_decide_eq_true hle) (of_decide_eq_true hge))
  all_goals simp_all [le]

/-! ## Laws -/

theorem le_iff {a b : Exact K} : a ≤ b ↔ le a b = true := Iff.rfl

theorem lt_iff {a b : Exact K} : a < b ↔ le b a = false ∧ le a b = true := Iff.rfl

/-- The infinities are below and above all numbers, and numbers compare as in the field. -/
theorem le_iff_cases {a b : Exact K} : a ≤ b ↔ a = below ∧ Scalar.IsNumber b ∨
    Scalar.IsNumber a ∧ b = above ∨ ∃ x y, a = finite x ∧ b = finite y ∧ x ≤ y := by
  have hnumber : ∀ c : Exact K, Scalar.IsNumber c ↔ isDefined c = true := fun c =>
    Bool.not_eq_eq_eq_not
  rw [le_iff, hnumber, hnumber]
  cases a <;> cases b <;> simp [le, isDefined]

theorem below_le {a : Exact K} (h : Scalar.IsNumber a) : below ≤ a :=
  le_iff_cases.mpr (.inl ⟨rfl, h⟩)

theorem le_above {a : Exact K} (h : Scalar.IsNumber a) : a ≤ above :=
  le_iff_cases.mpr (.inr (.inl ⟨h, rfl⟩))

theorem zero_eq : (0 : Exact K) = finite 0 := rfl

theorem infinity_eq : (Scalar.infinity : Exact K) = above := rfl

theorem neg_infinity_eq : (-Scalar.infinity : Exact K) = below := rfl

theorem finite_not_lt_zero {x : K} : ¬ (finite x : Exact K) < 0 ↔ 0 ≤ x := by
  rw [lt_iff, zero_eq, le, le, decide_eq_false_iff_not, decide_eq_true_iff]
  constructor
  · intro h
    by_contra hx
    exact h ⟨hx, (not_le.mp hx).le⟩
  · exact fun hx h => h.1 hx

/-- What is not negative. -/
theorem not_lt_zero_iff {a : Exact K} :
    ¬ a < 0 ↔ a = undefined ∨ a = above ∨ ∃ x, a = finite x ∧ 0 ≤ x := by
  cases a with
  | finite x => simp [finite_not_lt_zero]
  | undefined => exact iff_of_true (fun h => nomatch h.2) (.inl rfl)
  | below => exact iff_of_false (fun h => h ⟨rfl, rfl⟩) (by simp)
  | above => exact iff_of_true (fun h => nomatch h.2) (.inr (.inl rfl))

theorem not_infinityOf_lt_zero {x : K} (h : 0 ≤ x) : ¬ infinityOf x < 0 := by
  rw [not_lt_zero_iff, infinityOf, if_neg (not_lt.mpr h)]
  split_ifs <;> simp

theorem zero_lt_iff {a : Exact K} : 0 < a ↔ a = above ∨ ∃ x, a = finite x ∧ 0 < x := by
  rw [lt_iff, zero_eq]
  cases a with
  | finite x =>
    rw [le, le, decide_eq_false_iff_not, decide_eq_true_iff]
    simpa using fun h => h.le
  | undefined => simp [le]
  | below => simp [le]
  | above => simp [le]

theorem orderedLe_finite {x y : K} :
    Scalar.orderedLe (finite x : Exact K) (finite y) = true ↔ x ≤ y := by
  have horder : Scalar.order (finite x : Exact K) (finite y) = compare x y := rfl
  rw [Scalar.orderedLe, horder, Ordering.isLE_iff_ne_gt, ← not_lt,
    ← compare_gt_iff_gt]

variable [IsStrictOrderedRing K]

omit [IsStrictOrderedRing K] in
theorem above_mul {y : K} (hy : 0 < y) : (above * finite y : Exact K) = above := by
  change infinityOf (1 * y) = above
  rw [infinityOf, one_mul, if_pos hy]

theorem not_mul_lt_zero {a b : Exact K} (ha : ¬ a < 0) (hb : ¬ b < 0) : ¬ a * b < 0 := by
  rcases not_lt_zero_iff.mp ha with rfl | rfl | ⟨x, rfl, hx⟩
  · exact not_lt_zero_iff.mpr (.inl rfl)
  · rcases not_lt_zero_iff.mp hb with rfl | rfl | ⟨y, rfl, hy⟩
    · exact not_lt_zero_iff.mpr (.inl rfl)
    · exact not_infinityOf_lt_zero (mul_nonneg zero_le_one zero_le_one)
    · exact not_infinityOf_lt_zero (mul_nonneg zero_le_one hy)
  · rcases not_lt_zero_iff.mp hb with rfl | rfl | ⟨y, rfl, hy⟩
    · exact not_lt_zero_iff.mpr (.inl rfl)
    · exact not_infinityOf_lt_zero (mul_nonneg hx zero_le_one)
    · exact finite_not_lt_zero.mpr (mul_nonneg hx hy)

theorem not_div_lt_zero {a b : Exact K} (ha : ¬ a < 0) (hb : 0 < b) : ¬ a / b < 0 := by
  rcases zero_lt_iff.mp hb with rfl | ⟨y, rfl, hy⟩
  · rcases not_lt_zero_iff.mp ha with rfl | rfl | ⟨x, rfl, -⟩
    · exact not_lt_zero_iff.mpr (.inl rfl)
    · exact not_lt_zero_iff.mpr (.inl rfl)
    · exact finite_not_lt_zero.mpr le_rfl
  · rcases not_lt_zero_iff.mp ha with rfl | rfl | ⟨x, rfl, hx⟩
    · exact not_lt_zero_iff.mpr (.inl rfl)
    · refine not_infinityOf_lt_zero (mul_nonneg zero_le_one ?_)
      rw [if_neg (not_lt.mpr hy.le)]
      exact zero_le_one
    · rw [finite_div x hy.ne', finite_not_lt_zero]
      exact div_nonneg hx hy.le

omit [IsStrictOrderedRing K] in
theorem not_sqrt_lt_zero (a : Exact K) : ¬ Scalar.sqrt a < 0 := by
  change ¬ sqrt a < 0
  cases a with
  | finite x =>
    rw [sqrt]
    split_ifs with h
    · exact finite_not_lt_zero.mpr h.choose_spec.1
    · exact not_lt_zero_iff.mpr (.inl rfl)
  | undefined => exact not_lt_zero_iff.mpr (.inl rfl)
  | below => exact not_lt_zero_iff.mpr (.inl rfl)
  | above => exact not_lt_zero_iff.mpr (.inr (.inl rfl))

theorem sqrt_zero : Scalar.sqrt (0 : Exact K) = 0 := by
  have hroot : ∃ y : K, 0 ≤ y ∧ y * y = 0 := ⟨0, le_rfl, mul_zero 0⟩
  change sqrt (finite 0) = finite 0
  rw [sqrt, dif_pos hroot, mul_self_eq_zero.mp hroot.choose_spec.2]

omit [IsStrictOrderedRing K] in
theorem isNumber_of_le {a b : Exact K} (h : a ≤ b) : Scalar.IsNumber a ∧ Scalar.IsNumber b := by
  rcases le_iff_cases.mp h with ⟨rfl, hb⟩ | ⟨ha, rfl⟩ | ⟨x, y, rfl, rfl, -⟩
  · exact ⟨rfl, hb⟩
  · exact ⟨ha, rfl⟩
  · exact ⟨rfl, rfl⟩

omit [IsStrictOrderedRing K] in
theorem le_or_le {a b : Exact K} (ha : Scalar.IsNumber a) (hb : Scalar.IsNumber b) :
    a ≤ b ∨ b ≤ a := by
  cases a with
  | undefined => cases ha
  | below => exact .inl (below_le hb)
  | above => exact .inr (le_above hb)
  | finite x =>
    cases b with
    | undefined => cases hb
    | below => exact .inr (below_le ha)
    | above => exact .inl (le_above ha)
    | finite y => simpa only [finite_le] using le_total x y

omit [IsStrictOrderedRing K] in
theorem le_of_le_of_le {a b c : Exact K} (h : a ≤ b) (h' : b ≤ c) : a ≤ c := by
  have hc := (isNumber_of_le h').2
  rcases le_iff_cases.mp h with ⟨rfl, -⟩ | ⟨ha, rfl⟩ | ⟨x, y, rfl, rfl, hxy⟩
  · exact below_le hc
  · rcases le_iff_cases.mp h' with ⟨hb, -⟩ | ⟨-, rfl⟩ | ⟨_, _, hb, -, -⟩
    · cases hb
    · exact le_above ha
    · cases hb
  · rcases le_iff_cases.mp h' with ⟨hb, -⟩ | ⟨-, rfl⟩ | ⟨_, z, hb, rfl, hyz⟩
    · cases hb
    · exact le_above rfl
    · cases hb
      exact finite_le.mpr (hxy.trans hyz)

theorem add_finite_le {a b : Exact K} (z : K) (h : a ≤ b) : a + finite z ≤ b + finite z := by
  have hdefined : ∀ c : Exact K, Scalar.IsNumber c → Scalar.IsNumber (c + finite z) := by
    intro c hc
    cases c <;> first | rfl | cases hc
  rcases le_iff_cases.mp h with ⟨rfl, hb⟩ | ⟨ha, rfl⟩ | ⟨x, y, rfl, rfl, hxy⟩
  · exact below_le (hdefined b hb)
  · exact le_above (hdefined a ha)
  · exact finite_le.mpr (add_le_add_left hxy z)

/-- Finite summands can be moved to the other side. -/
theorem add_le_iff {a b c : Exact K} (ha : Scalar.isFinite a = true)
    (hb : Scalar.isFinite b = true) (hc : Scalar.isFinite c = true) : a + b ≤ c ↔ a ≤ c - b := by
  obtain ⟨x, rfl⟩ := eq_finite_of_isFinite ha
  obtain ⟨y, rfl⟩ := eq_finite_of_isFinite hb
  obtain ⟨z, rfl⟩ := eq_finite_of_isFinite hc
  rw [finite_sub, finite_le]
  exact finite_le.trans le_sub_iff_add_le.symm

theorem le_add_of_not_lt {a c : Exact K} (hsum : Scalar.IsNumber (a + c)) (hc : ¬ c < 0) :
    a ≤ a + c := by
  rcases not_lt_zero_iff.mp hc with rfl | rfl | ⟨z, rfl, hz⟩
  · cases a <;> cases hsum
  · cases a with
    | undefined => cases hsum
    | below => cases hsum
    | above => rfl
    | finite x => rfl
  · cases a with
    | undefined => cases hsum
    | below => rfl
    | above => rfl
    | finite x => exact finite_le.mpr (le_add_of_nonneg_right hz)

omit [IsStrictOrderedRing K] in
theorem not_lt_of_orderedLe {a b : Exact K} (h : Scalar.orderedLe a b = true) : ¬ b < a := by
  intro hlt
  obtain ⟨hnot, hle⟩ := lt_iff.mp hlt
  rcases le_iff_cases.mp (le_iff.mpr hle) with ⟨rfl, ha⟩ | ⟨hb, rfl⟩ | ⟨y, x, rfl, rfl, -⟩
  · cases a with
    | undefined => cases ha
    | below => cases hnot
    | finite x => cases h
    | above => cases h
  · cases b with
    | undefined => cases hb
    | below => cases h
    | finite y => cases h
    | above => cases hnot
  · exact of_decide_eq_false hnot (orderedLe_finite.mp h)

instance : LawfulScalar (Exact K) where
  isNumber_of_le := isNumber_of_le
  le_total := le_or_le
  le_trans := le_of_le_of_le
  lt_iff {a b} := by rw [lt_iff, le_iff, le_iff, Bool.not_eq_true, and_comm]
  isFinite_iff {a} := by
    rw [neg_infinity_eq, infinity_eq, lt_iff, lt_iff]
    cases a with
    | finite x => exact iff_of_true rfl ⟨⟨rfl, rfl⟩, rfl, rfl⟩
    | undefined => exact iff_of_false nofun fun h => nomatch h.1.2
    | below => exact iff_of_false nofun fun h => nomatch h.1.1
    | above => exact iff_of_false nofun fun h => nomatch h.2.1
  isFinite_zero := rfl
  le_infinity := le_above
  neg_infinity_le := below_le
  add_le_add_right {a b c} hc h := by
    obtain ⟨z, rfl⟩ := eq_finite_of_isFinite hc
    exact add_finite_le z h
  add_comm a b := by
    cases a <;> cases b <;> first | rfl | exact congrArg finite (add_comm _ _)
  le_add := le_add_of_not_lt
  isNumber_sub {a b} ha hb := by
    obtain ⟨y, rfl⟩ := eq_finite_of_isFinite hb
    cases a <;> first | rfl | cases ha
  not_mul_lt_zero := not_mul_lt_zero
  not_div_lt_zero := not_div_lt_zero
  not_sqrt_lt_zero := not_sqrt_lt_zero
  order_transCmp := inferInstanceAs (Std.TransCmp (compareLex (compareOn rank) (compareOn sign)))
  not_lt_of_orderedLe := not_lt_of_orderedLe

instance : LawfulUnit (Exact K) where
  mul_unit {v} hv := by
    have hunit : (Scalar.ofNat 1 / Scalar.ofNat 1 : Exact K) = finite 1 := by
      rw [finite_ofNat, Nat.cast_one, finite_div 1 one_ne_zero, div_one]
    rw [hunit]
    cases v with
    | undefined => cases hv
    | below =>
      change infinityOf (-1 * 1 : K) = below
      simp [infinityOf, zero_lt_one.le]
    | above => exact above_mul zero_lt_one
    | finite x => rw [finite_mul, mul_one]

/-- Exact numbers are stored as they are. -/
instance : Narrowing (Exact K) (Exact K) := ⟨id⟩

/-! ## Without the infinity below all numbers -/

omit [IsStrictOrderedRing K] in
theorem eq_above_or_finite {a : Exact K} (h : Scalar.IsNumber a) (hbelow : a ≠ below) :
    a = above ∨ ∃ x, a = finite x := by
  cases a with
  | undefined => cases h
  | below => exact absurd rfl hbelow
  | above => exact .inl rfl
  | finite x => exact .inr ⟨x, rfl⟩

omit [IsStrictOrderedRing K] in
theorem abs_ne_below (a : Exact K) : Scalar.abs a ≠ below := by
  cases a <;> exact nofun

omit [IsStrictOrderedRing K] in
theorem add_ne_below {a b : Exact K} (ha : a ≠ below) (hb : b ≠ below) : a + b ≠ below := by
  cases a <;> cases b <;> first | exact absurd rfl ha | exact absurd rfl hb | exact nofun

theorem div_ne_below {a : Exact K} (ha : a ≠ below) {y : K} (hy : 0 < y) :
    a / finite y ≠ below := by
  cases a with
  | undefined => exact nofun
  | below => exact absurd rfl ha
  | finite x =>
    rw [finite_div x hy.ne']
    exact nofun
  | above =>
    have hquotient : (above / finite y : Exact K) = above :=
      if_pos (by simp [sign, hy.le.not_gt])
    rw [hquotient]
    exact nofun

end Exact

end ZoneSkims
