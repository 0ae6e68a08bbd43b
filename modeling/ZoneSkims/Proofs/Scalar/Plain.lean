import ZoneSkims.Proofs.Scalar.Double

/-!
# Numbers other than -0

Comparison does not see the sign of 0, and the total order does. Without -0 both agree: numbers of
which neither is less are the same number.

* `Scalar.IsPlain`: finite, and not -0.
* `LawfulZero`: the law, with its proof for double precision.
-/

namespace ZoneSkims

namespace Scalar

variable {α : Type} [Scalar α]

/-- The scalar is -0, where that is not 0. -/
def IsNegativeZero (a : α) : Prop := a = -0 ∧ a ≠ 0

/-- The scalar is finite and not -0. -/
structure IsPlain (a : α) : Prop where
  isFinite : isFinite a = true
  not_isNegativeZero : ¬ IsNegativeZero a

instance [DecidableEq α] (a : α) : Decidable (IsNegativeZero a) :=
  inferInstanceAs (Decidable (_ ∧ _))

instance [DecidableEq α] (a : α) : Decidable (IsPlain a) :=
  decidable_of_iff (isFinite a = true ∧ ¬ IsNegativeZero a)
    ⟨fun h => ⟨h.1, h.2⟩, fun h => ⟨h.1, h.2⟩⟩

end Scalar

open Scalar

/-- Scalars among which only the sign of 0 escapes comparison. -/
class LawfulZero (α : Type) [Scalar α] : Prop where
  eq_of_le {a b : α} : a ≤ b → b ≤ a → ¬ IsNegativeZero a → ¬ IsNegativeZero b → a = b

namespace Scalar.IsPlain

variable {α : Type} [Scalar α] {a b : α}

theorem eq_of_le [LawfulZero α] (ha : IsPlain a) (hb : IsPlain b) (h : a ≤ b) (h' : b ≤ a) :
    a = b :=
  LawfulZero.eq_of_le h h' ha.not_isNegativeZero hb.not_isNegativeZero

variable [LawfulScalar α]

protected theorem isNumber (h : IsPlain a) : IsNumber a := isNumber_of_isFinite h.isFinite

protected theorem le_refl (h : IsPlain a) : a ≤ a := Scalar.le_refl h.isNumber

protected theorem le_of_not_lt (ha : IsPlain a) (hb : IsPlain b) (h : ¬ a < b) : b ≤ a :=
  Scalar.le_of_not_lt ha.isNumber hb.isNumber h

end Scalar.IsPlain

/-! ## Double precision -/

theorem toBits_injective : Function.Injective Float.toBits := by
  rintro ⟨⟨bits, _⟩⟩ ⟨⟨bits', _⟩⟩ h
  obtain rfl : bits = bits' := h
  rfl

theorem float_eq_of_toBits {a b : Float} (h : a.toBits.toNat = b.toBits.toNat) : a = b :=
  toBits_injective (UInt64.toNat_inj.mp h)

/-- The units of a number tell its bits, but for the sign of 0. -/
theorem float_eq_of_units {a b : Float} (ha : IsNumber a) (hb : IsNumber b)
    (h : unitsOf a = unitsOf b) (ha0 : ¬ IsNegativeZero a) (hb0 : ¬ IsNegativeZero b) : a = b := by
  have hpos : ∀ {x : Float}, 2 ^ 63 ≤ x.toBits.toNat → ¬ IsNegativeZero x →
      0 < patternUnits (x.toBits.toNat - 2 ^ 63) := by
    intro x hsign hx
    refine Nat.pos_of_ne_zero fun hzero => hx ?_
    have hbits : x.toBits.toNat = 2 ^ 63 := by
      have := patternUnits_strictMono.injective (hzero.trans (by rfl : 0 = patternUnits 0))
      omega
    obtain rfl : x = -0 := float_eq_of_toBits hbits
    exact ⟨rfl, fun heq => absurd (congrArg Float.toBits heq) (by decide)⟩
  rw [unitsOf_eq ha, unitsOf_eq hb] at h
  refine float_eq_of_toBits ?_
  split_ifs at h with hsign hsign' hsign'
  · exact patternUnits_strictMono.injective (Int.ofNat_inj.mp h)
  · have := hpos (Nat.le_of_not_lt hsign') hb0
    omega
  · have := hpos (Nat.le_of_not_lt hsign) ha0
    omega
  · have := patternUnits_strictMono.injective (Int.ofNat_inj.mp (Int.neg_inj.mp h))
    omega

instance : LawfulZero Float where
  eq_of_le h h' ha hb := by
    obtain ⟨hnumber, hnumber', hle⟩ := float_le_iff.mp h
    obtain ⟨-, -, hge⟩ := float_le_iff.mp h'
    exact float_eq_of_units hnumber hnumber' (Int.le_antisymm hle hge) ha hb

end ZoneSkims
