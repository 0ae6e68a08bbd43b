import Mathlib.Data.List.Sort
import ZoneSkims.Proofs.Scalar.Plain

/-!
# Sorted scalars

The total order tells all scalars apart, those included that are equal as numbers. So a list has
one sorted form, whatever the order of its elements was.

* `LawfulSorting`: the laws, with their proof for double precision.
* `Scalar.mergeSort_eq_of_perm`: the order of the elements before sorting is lost.
-/

namespace ZoneSkims

open Scalar

/-- Scalars that the total order tells apart, and that are equal as numbers when neither is less. -/
class LawfulSorting (α : Type) [Scalar α] : Prop where
  eq_of_order {a b : α} : order a b = .eq → a = b
  beq_iff {a b : α} : (a == b) = true ↔ a ≤ b ∧ b ≤ a

/-! ## Double precision -/

theorem orderKey_injective : Function.Injective orderKey := by
  intro a b h
  have hkey := congrArg UInt64.toNat h
  have ha := a.toBits.toNat_lt
  have hb := b.toBits.toNat_lt
  rw [orderKey_toNat, orderKey_toNat] at hkey
  refine float_eq_of_toBits ?_
  split_ifs at hkey <;> omega

theorem float_beq_iff {a b : Float} : (a == b) = true ↔ a ≤ b ∧ b ≤ a := by
  have hdef : (a == b) = true ↔ ((unpacked a).compare (unpacked b)).any (· == .eq) = true := by
    change ((unpacked a).compare (unpacked b) == some .eq) = true ↔ _
    cases (unpacked a).compare (unpacked b) <;> simp
  rw [hdef, compare_unpacked, beq_iff_eq, compare_eq_iff_eq, float_le_iff, float_le_iff]
  constructor
  · rintro ⟨ha, hb, h⟩
    exact ⟨⟨ha, hb, h.le⟩, hb, ha, h.ge⟩
  · rintro ⟨⟨ha, hb, h⟩, -, -, h'⟩
    exact ⟨ha, hb, Int.le_antisymm h h'⟩

instance : LawfulSorting Float where
  eq_of_order h := orderKey_injective (Std.LawfulEqOrd.eq_of_compare h)
  beq_iff := float_beq_iff

/-! ## Sorting -/

namespace Scalar

variable {α : Type} [Scalar α] [LawfulScalar α] [LawfulSorting α]

theorem eq_of_orderedLe {a b : α} (h : orderedLe a b = true) (h' : orderedLe b a = true) :
    a = b := by
  have hswap : order b a = (order a b).swap := Std.OrientedCmp.eq_swap
  rw [orderedLe, hswap] at h'
  refine LawfulSorting.eq_of_order ?_
  revert h h'
  rw [orderedLe]
  cases order a b <;> decide

/-- Lists with the same elements are sorted into the same list. -/
theorem mergeSort_eq_of_perm {xs ys : List α} (h : xs.Perm ys) :
    xs.mergeSort orderedLe = ys.mergeSort orderedLe := by
  have hsorted (zs : List α) :
      (zs.mergeSort orderedLe).Pairwise fun x y => orderedLe x y = true :=
    @List.pairwise_mergeSort α orderedLe (fun _ _ _ => Std.TransCmp.isLE_trans) orderedLe_total zs
  refine List.Perm.eq_of_pairwise (fun a b _ _ => eq_of_orderedLe) (hsorted xs) (hsorted ys) ?_
  exact ((List.mergeSort_perm xs _).trans h).trans (List.mergeSort_perm ys _).symm

end Scalar

end ZoneSkims
