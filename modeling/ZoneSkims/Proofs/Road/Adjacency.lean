import Mathlib.Algebra.Group.Nat.Defs
import ZoneSkims.Proofs.Outcome
import ZoneSkims.Proofs.Positions
import ZoneSkims.Road.Adjacency

/-!
# Links by node

The slices of an adjacency are found by counting. Each holds exactly the links that end at its node,
in the order of their ids.

* `Adjacency.endsAt`: the links at a node, said without counting.
* `Adjacency.Filled`: what the slices hold while they are filled.
* `Adjacency.links_ofEnds`: the slice of every node holds the links at it.
-/

namespace ZoneSkims

namespace Adjacency

/-! ## Slices -/

/-- The links at the node with number `n`, in the order of their ids. -/
def endsAt (entries : List (NodeId × Nat)) (n : Nat) : List LinkId :=
  (entries.filter fun entry => entry.1.index = n).map fun entry => Id.ofIndex entry.2

/-- Where the slice of the node with number `n` starts: behind the links of all nodes before. -/
def offset (ends : List NodeId) (n : Nat) : Nat :=
  ends.countP fun node => node.index < n

theorem endsAt_concat (entries : List (NodeId × Nat)) (node : NodeId) (i n : Nat) :
    endsAt (entries ++ [(node, i)]) n =
      if node.index = n then endsAt entries n ++ [Id.ofIndex i] else endsAt entries n := by
  unfold endsAt
  by_cases h : node.index = n
  · simp [List.filter_append, h]
  · simp [List.filter_append, h]

theorem length_endsAt (ends : List NodeId) (n : Nat) :
    (endsAt ends.zipIdx n).length = ends.countP fun node => node.index = n := by
  unfold endsAt
  rw [List.length_map, ← List.countP_eq_length_filter]
  have hmap : (ends.zipIdx.map Prod.fst).countP (fun node => node.index = n) =
      ends.countP fun node => node.index = n := by
    rw [List.zipIdx_map_fst]
  rw [← hmap, List.countP_map]
  rfl

/-- The links at a node are those that have it as their end. -/
theorem mem_endsAt {ends : List NodeId} (hlinks : ends.length < 2 ^ 32) {node : NodeId}
    {id : LinkId} : id ∈ endsAt ends.zipIdx node.index ↔ ends[id.index]? = some node := by
  simp only [endsAt, List.mem_map, List.mem_filter, decide_eq_true_eq, Prod.exists,
    List.mem_zipIdx_iff_getElem?]
  constructor
  · rintro ⟨other, i, ⟨hother, hnode⟩, rfl⟩
    have hi : i < 2 ^ 32 := Nat.lt_trans (List.getElem?_eq_some_iff.mp hother).1 hlinks
    rwa [Id.index_ofIndex hi, ← Id.index_injective hnode]
  · intro hid
    exact ⟨node, id.index, ⟨hid, rfl⟩, Id.ofIndex_index id⟩

/-- The links at a node are in the order of their ids. -/
theorem pairwise_endsAt {ends : List NodeId} (hlinks : ends.length < 2 ^ 32) (n : Nat) :
    (endsAt ends.zipIdx n).Pairwise (· < ·) := by
  rw [endsAt, List.pairwise_map]
  refine ((pairwise_zipIdx ends).filter _).imp_of_mem fun {entry later} hentry hlater hlt => ?_
  have hbound : ∀ entry ∈ ends.zipIdx, entry.2 < 2 ^ 32 := fun entry hentry =>
    Nat.lt_trans (List.snd_lt_of_mem_zipIdx hentry) hlinks
  rw [Id.lt_iff_index_lt, Id.index_ofIndex (hbound _ (List.mem_of_mem_filter hentry)),
    Id.index_ofIndex (hbound _ (List.mem_of_mem_filter hlater))]
  exact hlt

/-- Links at a node are positions of ends, even where ids are cut off. -/
theorem index_lt_of_mem_endsAt {ends : List NodeId} {n : Nat} {id : LinkId}
    (h : id ∈ endsAt ends.zipIdx n) : id.index < ends.length := by
  obtain ⟨⟨node, i⟩, hentry, rfl⟩ := List.mem_map.mp h
  have hi := List.mem_zipIdx_iff_getElem?.mp (List.mem_filter.mp hentry).1
  -- the low bits of a number are no larger than it
  exact Nat.lt_of_le_of_lt (Nat.mod_le i (2 ^ 32)) (List.getElem?_eq_some_iff.mp hi).1

theorem offset_succ (ends : List NodeId) (n : Nat) :
    offset ends (n + 1) = offset ends n + ends.countP fun node => node.index = n := by
  unfold offset
  induction ends with
  | nil => rfl
  | cons node ends ih =>
    simp only [List.countP_cons, decide_eq_true_eq, ih]
    rcases Nat.lt_trichotomy node.index n with h | h | h
    · rw [if_pos (by omega), if_pos h, if_neg (by omega)]
      omega
    · rw [if_pos (by omega), if_neg (by omega), if_pos h]
      omega
    · rw [if_neg (by omega), if_neg (by omega), if_neg (by omega)]
      omega

theorem offset_mono (ends : List NodeId) {n m : Nat} (h : n ≤ m) :
    offset ends n ≤ offset ends m := by
  induction h with
  | refl => exact Nat.le_refl _
  | step _ ih => exact Nat.le_trans ih (by rw [offset_succ]; omega)

theorem offset_le_length (ends : List NodeId) (n : Nat) : offset ends n ≤ ends.length :=
  List.countP_le_length

/-! ## Counting -/

theorem getElem?_countEnds (nodeCount : Nat) (ends : List NodeId) {n : Nat} (h : n < nodeCount) :
    (countEnds nodeCount ends)[n]? = some (ends.countP fun node => node.index = n) := by
  have aux : ∀ (ends : List NodeId) (counts : Array Nat) (k : Nat), counts[n]? = some k →
      (ends.foldl (fun counts node => counts.modify node.index (· + 1)) counts)[n]? =
        some (k + ends.countP fun node => node.index = n) := by
    intro ends
    induction ends with
    | nil => intro counts k hk; simpa using hk
    | cons node ends ih =>
      intro counts k hk
      rw [List.foldl_cons]
      by_cases hnode : node.index = n
      · rw [ih _ (k + 1) (by rw [Array.getElem?_modify, if_pos hnode, hk]; rfl)]
        simp [hnode]
        omega
      · rw [ih _ k (by rw [Array.getElem?_modify, if_neg hnode, hk])]
        simp [hnode]
  rw [countEnds, aux ends _ 0 (by simp [h]), Nat.zero_add]

theorem size_countEnds (nodeCount : Nat) (ends : List NodeId) :
    (countEnds nodeCount ends).size = nodeCount := by
  have aux : ∀ (ends : List NodeId) (counts : Array Nat),
      (ends.foldl (fun counts node => counts.modify node.index (· + 1)) counts).size =
        counts.size := by
    intro ends
    induction ends with
    | nil => intro counts; rfl
    | cons node ends ih => intro counts; rw [List.foldl_cons, ih, Array.size_modify]
  rw [countEnds, aux, Array.size_replicate]

theorem getElem?_runningTotals (xs : List Nat) : ∀ {total n : Nat}, n ≤ xs.length →
    (runningTotals total xs)[n]? = some ((xs.take n).foldl (· + ·) total) := by
  induction xs with
  | nil =>
    intro total n h
    obtain rfl : n = 0 := by simpa using h
    rfl
  | cons x xs ih =>
    intro total n h
    cases n with
    | zero => rfl
    | succ n =>
      rw [runningTotals, List.getElem?_cons_succ, ih (by simpa using h), List.take_succ_cons]
      rfl

/-- The slices start behind each other. -/
theorem getElem?_starts (nodeCount : Nat) (ends : List NodeId) {n : Nat} (h : n ≤ nodeCount) :
    (ofEnds nodeCount ends).starts[n]? = some (offset ends n) := by
  have htotal : ∀ m, m ≤ nodeCount →
      ((countEnds nodeCount ends).toList.take m).foldl (· + ·) 0 = offset ends m := by
    intro m
    induction m with
    | zero => intro _; simp [offset]
    | succ m ih =>
      intro hm
      have hcount := getElem?_countEnds nodeCount ends (show m < nodeCount by omega)
      rw [← Array.getElem?_toList] at hcount
      rw [List.take_add_one, hcount, List.foldl_append, ih (by omega), offset_succ]
      rfl
  have hlength : (countEnds nodeCount ends).toList.length = nodeCount := by
    rw [Array.length_toList, size_countEnds]
  rw [ofEnds, List.getElem?_toArray, getElem?_runningTotals _ (by omega), htotal n h]

/-! ## Filling -/

/-- The slices while they are filled: each holds, from its start on, the links at its node among
those that were placed, and its next free place is right behind them. -/
structure Filled (nodeCount : Nat) (ends : List NodeId) (placed : List (NodeId × Nat))
    (filling : Filling) : Prop where
  size : filling.slots.size = ends.length
  free : ∀ n < nodeCount, filling.free[n]? = some (offset ends n + (endsAt placed n).length)
  slots : ∀ n < nodeCount, ∀ j < (endsAt placed n).length,
    filling.slots[offset ends n + j]? = (endsAt placed n)[j]?

/-- What is placed at a node fits into its slice. -/
theorem offset_add_le {ends : List NodeId} {placed rest : List (NodeId × Nat)}
    (h : ends.zipIdx = placed ++ rest) (n : Nat) :
    offset ends n + (endsAt placed n).length ≤ offset ends (n + 1) := by
  have hlength := length_endsAt ends n
  rw [h, endsAt, List.filter_append, List.map_append, List.length_append] at hlength
  rw [offset_succ, endsAt]
  omega

theorem Filled.place {nodeCount : Nat} {ends : List NodeId} {placed rest : List (NodeId × Nat)}
    {node : NodeId} {i : Nat} {filling : Filling} (hfilled : Filled nodeCount ends placed filling)
    (hends : ends.zipIdx = placed ++ (node, i) :: rest) (hnode : node.index < nodeCount) :
    Filled nodeCount ends (placed ++ [(node, i)]) (filling.place node (Id.ofIndex i)) := by
  have hfree := hfilled.free _ hnode
  have hfits : ∀ n, offset ends n + (endsAt (placed ++ [(node, i)]) n).length ≤
      offset ends (n + 1) := fun n =>
    offset_add_le (show ends.zipIdx = (placed ++ [(node, i)]) ++ rest by rw [hends]; simp) n
  have hslot : offset ends node.index + (endsAt placed node.index).length <
      offset ends (node.index + 1) := by
    have := hfits node.index
    rw [endsAt_concat, if_pos rfl, List.length_append] at this
    exact this
  have hplace : filling.place node (Id.ofIndex i) =
      { free := filling.free.setIfInBounds node.index
          (offset ends node.index + (endsAt placed node.index).length + 1)
        slots := filling.slots.setIfInBounds
          (offset ends node.index + (endsAt placed node.index).length) (Id.ofIndex i) } := by
    rw [Filling.place, hfree]
  rw [hplace]
  refine ⟨?_, fun n hn => ?_, fun n hn j hj => ?_⟩
  · rw [Array.size_setIfInBounds]
    exact hfilled.size
  · show (filling.free.setIfInBounds node.index _)[n]? = _
    have hlt : node.index < filling.free.size := (Array.getElem?_eq_some_iff.mp hfree).1
    rw [Array.getElem?_setIfInBounds, endsAt_concat]
    by_cases h : node.index = n
    · subst h
      rw [if_pos rfl, if_pos rfl, if_pos hlt, List.length_append]
      rfl
    · rw [if_neg h, if_neg h]
      exact hfilled.free n hn
  · show (filling.slots.setIfInBounds _ _)[offset ends n + j]? = _
    have hlt : offset ends node.index + (endsAt placed node.index).length < filling.slots.size := by
      rw [hfilled.size]
      exact Nat.lt_of_lt_of_le hslot (offset_le_length ends _)
    rw [Array.getElem?_setIfInBounds]
    rw [endsAt_concat] at hj ⊢
    by_cases h : node.index = n
    · subst h
      rw [if_pos rfl] at hj ⊢
      rw [List.length_append, List.length_singleton] at hj
      by_cases hlast : j = (endsAt placed node.index).length
      · subst hlast
        rw [if_pos rfl, if_pos hlt, List.getElem?_concat_length]
      · rw [if_neg (by omega), List.getElem?_append_left (by omega)]
        exact hfilled.slots _ hn j (by omega)
    · -- The slices of two nodes do not overlap.
      rw [if_neg h] at hj ⊢
      have hfit := hfits n
      rw [endsAt_concat, if_neg h] at hfit
      have hapart : offset ends node.index + (endsAt placed node.index).length ≠
          offset ends n + j := by
        rcases Nat.lt_or_gt_of_ne h with hlt | hlt
        · have := offset_mono ends (show node.index + 1 ≤ n by omega)
          omega
        · have := offset_mono ends (show n + 1 ≤ node.index by omega)
          omega
      rw [if_neg hapart]
      exact hfilled.slots n hn j hj

theorem filled_ofEnds {nodeCount : Nat} {ends : List NodeId}
    (hends : ∀ node ∈ ends, node.index < nodeCount) :
    ∃ filling, Filled nodeCount ends ends.zipIdx filling ∧
      (ofEnds nodeCount ends).slots = filling.slots := by
  have aux : ∀ rest placed filling, ends.zipIdx = placed ++ rest →
      Filled nodeCount ends placed filling →
      Filled nodeCount ends ends.zipIdx
        (rest.foldl (fun filling entry => filling.place entry.1 (Id.ofIndex entry.2))
          filling) := by
    intro rest
    induction rest with
    | nil =>
      intro placed filling hrest hfilled
      rwa [hrest, List.append_nil]
    | cons entry rest ih =>
      intro placed filling hrest hfilled
      obtain ⟨node, i⟩ := entry
      have hmem : (node, i) ∈ ends.zipIdx := by rw [hrest]; simp
      refine ih (placed ++ [(node, i)]) _ (by rw [hrest]; simp) (hfilled.place hrest ?_)
      exact hends node (List.fst_mem_of_mem_zipIdx hmem)
  refine ⟨_, aux ends.zipIdx [] _ rfl ⟨?_, fun n hn => ?_, fun n hn j hj => ?_⟩, rfl⟩
  · exact Array.size_replicate
  · exact getElem?_starts nodeCount ends (Nat.le_of_lt hn)
  · exact absurd hj (Nat.not_lt_zero j)

/-- The slice of every node holds the links at it, in the order of their ids. -/
theorem links_ofEnds {nodeCount : Nat} {ends : List NodeId} {node : NodeId}
    (hends : ∀ node ∈ ends, node.index < nodeCount) (hnode : node.index < nodeCount) :
    (ofEnds nodeCount ends).links node = .ok (endsAt ends.zipIdx node.index) := by
  obtain ⟨filling, hfilled, hslots⟩ := filled_ofEnds hends
  have hlength := length_endsAt ends node.index
  have hstop := offset_succ ends node.index
  have hsize := offset_le_length ends (node.index + 1)
  rw [links, fetch_eq_ok.mpr (getElem?_starts nodeCount ends (Nat.le_of_lt hnode)),
    fetch_eq_ok.mpr (getElem?_starts nodeCount ends hnode), hslots]
  show (if _ then _ else _) = _
  rw [if_pos ⟨offset_mono ends (Nat.le_succ _), by rw [hfilled.size]; exact hsize⟩]
  congr 1
  refine List.ext_getElem? fun j => ?_
  rw [Array.getElem?_toList, Array.getElem?_extract, hfilled.size, Nat.succ_eq_add_one]
  by_cases hj : j < (endsAt ends.zipIdx node.index).length
  · rw [if_pos (by omega)]
    exact hfilled.slots _ hnode j hj
  · rw [if_neg (by omega), List.getElem?_eq_none (by omega)]

end Adjacency

end ZoneSkims
