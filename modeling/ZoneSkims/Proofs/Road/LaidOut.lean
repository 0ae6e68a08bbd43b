import Mathlib.Order.Bounds.Defs
import ZoneSkims.Proofs.Road.Safety

/-!
# How a network is laid out

Building a network refuses the first link with an end that was never added. Otherwise each link has
its place in the slice of its end, and the slices of all nodes fill the array: whatever place is
taken, the running totals put it between the start of one slice and that of the next. So no place is
left unfilled, and no slice that a search takes reaches beyond the array.

One thing more is asked of the nodes. They are put in order for the search of the nearest one, and
among more than six of them one at an undefined position has no place in any order
(`not_built_undefined`).

* `Adjacency.Exact`: the slices hold every link once, at its end and in the order of the ids.
* `Adjacency.exact_ofEnds`: slices that are found by counting are exact.
* `NetworkDraft.build_exact`: which drafts are refused and why, and what the others become.
-/

namespace ZoneSkims

namespace Adjacency

/-- Each node has the links that end there in ascending order, every link is at one node, and all
places hold links. -/
structure Exact (adjacency : Adjacency) (nodeCount : Nat) (ends : List NodeId) : Prop where
  links : ∀ node : NodeId, node.index < nodeCount → ∃ ids, adjacency.links node = .ok ids ∧
    ids.Pairwise (· < ·) ∧ ∀ id : LinkId, id ∈ ids ↔ ends[id.index]? = some node
  once : ∀ id : LinkId, id.index < ends.length →
    ∃! node : NodeId, node.index < nodeCount ∧ ∃ ids, adjacency.links node = .ok ids ∧ id ∈ ids
  size : adjacency.slots.size = ends.length
  filled : ∀ id ∈ adjacency.slots, id ≠ Id.invalid

/-! ## The places of all slices -/

section

variable {nodeCount : Nat} {ends : List NodeId}

theorem offset_nodeCount (hends : ∀ node ∈ ends, node.index < nodeCount) :
    offset ends nodeCount = ends.length :=
  List.countP_eq_length.mpr fun node hnode => decide_eq_true (hends node hnode)

/-- Every place is in the slice of a node. -/
theorem exists_slice {slot : Nat} (h : slot < offset ends nodeCount) :
    ∃ n < nodeCount, offset ends n ≤ slot ∧ slot < offset ends (n + 1) := by
  induction nodeCount with
  | zero => simp [offset] at h
  | succ n ih =>
    by_cases hslot : slot < offset ends n
    · obtain ⟨m, hm, hslice⟩ := ih hslot
      exact ⟨m, Nat.lt_succ_of_lt hm, hslice⟩
    · exact ⟨n, Nat.lt_succ_self n, Nat.le_of_not_lt hslot, h⟩

/-- Every place holds one of the links at the node of its slice. -/
theorem exists_of_mem_slots (hends : ∀ node ∈ ends, node.index < nodeCount) {id : LinkId}
    (hid : id ∈ (ofEnds nodeCount ends).slots) :
    ∃ n < nodeCount, id ∈ endsAt ends.zipIdx n := by
  obtain ⟨filling, hfilled, hslots⟩ := filled_ofEnds hends
  rw [hslots] at hid
  obtain ⟨slot, hget⟩ := Array.mem_iff_getElem?.mp hid
  have hslot : slot < offset ends nodeCount := by
    rw [offset_nodeCount hends, ← hfilled.size]
    exact (Array.getElem?_eq_some_iff.mp hget).1
  obtain ⟨n, hn, hle, hlt⟩ := exists_slice hslot
  rw [offset_succ, ← length_endsAt] at hlt
  obtain ⟨j, rfl⟩ := Nat.exists_eq_add_of_le hle
  rw [hfilled.slots n hn j (Nat.lt_of_add_lt_add_left hlt)] at hget
  exact ⟨n, hn, List.mem_of_getElem? hget⟩

/-- Slices that are found by counting are exact. -/
theorem exact_ofEnds (hends : ∀ node ∈ ends, node.index < nodeCount)
    (hlinks : ends.length < 2 ^ 32 - 1) : (ofEnds nodeCount ends).Exact nodeCount ends := by
  have hids : ends.length < 2 ^ 32 := by omega
  have hat : ∀ node : NodeId, node.index < nodeCount →
      (ofEnds nodeCount ends).links node = .ok (endsAt ends.zipIdx node.index) :=
    fun node hnode => links_ofEnds hends hnode
  refine ⟨fun node hnode => ?_, fun id hid => ?_, ?_, fun id hid => ?_⟩
  · exact ⟨_, hat node hnode, pairwise_endsAt hids _, fun id => mem_endsAt hids⟩
  · have hend : ends[id.index]? = some ends[id.index] := List.getElem?_eq_getElem hid
    have hnode := hends _ (List.mem_of_getElem? hend)
    refine ⟨ends[id.index], ⟨hnode, _, hat _ hnode, (mem_endsAt hids).mpr hend⟩, ?_⟩
    rintro node ⟨hother, ids, hok, hmem⟩
    cases (hat node hother).symm.trans hok
    exact Option.some.inj (((mem_endsAt hids).mp hmem).symm.trans hend)
  · obtain ⟨filling, hfilled, hslots⟩ := filled_ofEnds hends
    rw [hslots]
    exact hfilled.size
  · obtain ⟨n, -, hmem⟩ := exists_of_mem_slots hends hid
    rintro rfl
    exact absurd (index_lt_of_mem_endsAt hmem) (Nat.not_lt.mpr (Nat.le_of_lt hlinks))

end

end Adjacency

/-! ## Building -/

namespace NetworkDraft

variable {α : Type} [Scalar α]

/-- The numbers of the links with an end that is no node of the draft. -/
def strays (draft : NetworkDraft α) : Set Nat :=
  {i | ∃ link, draft.links[i]? = some link ∧
    ¬ (link.source.index < draft.nodes.size ∧ link.target.index < draft.nodes.size)}

/-- The nodes can be put in order: there are few of them, or no position is undefined. -/
def Sortable (draft : NetworkDraft α) : Prop :=
  draft.nodes.size ≤ Coord.searchedOneByOne ∨ ∀ place ∈ draft.nodes, place.isUndefined = false

/-- The network has the nodes and links of the draft, its outgoing and incoming slices are exact,
and no search over it takes a slice out of range, when link functions have values on its links. -/
structure LaidOut (draft : NetworkDraft α) (network : Network α) : Prop where
  toNetworkDraft : network.toNetworkDraft = draft
  outgoing : network.outgoing.Exact draft.nodes.size (draft.links.toList.map Link.source)
  incoming : network.incoming.Exact draft.nodes.size (draft.links.toList.map Link.target)
  searched : ∀ search : RoadSearch α, search.network = network → search.Total →
    ∀ root rootTime direction maxCost target,
      Unbroken (search.run root rootTime direction maxCost target)

omit [Scalar α] in
theorem isStray_iff {draft : NetworkDraft α} {link : Link α} : draft.isStray link = true ↔
    ¬ (link.source.index < draft.nodes.size ∧ link.target.index < draft.nodes.size) := by
  simp only [isStray, Bool.or_eq_true, decide_eq_true_eq]
  omega

omit [Scalar α] in
theorem findIdx?_isStray_eq_some_iff {draft : NetworkDraft α} {i : Nat} :
    draft.links.findIdx? draft.isStray = some i ↔ IsLeast draft.strays i := by
  rw [Array.findIdx?_eq_some_iff_getElem]
  constructor
  · rintro ⟨hi, hstray, hbefore⟩
    refine ⟨⟨_, Array.getElem?_eq_getElem hi, isStray_iff.mp hstray⟩, ?_⟩
    rintro j ⟨link, hlink, hj⟩
    refine Nat.le_of_not_lt fun hlt => ?_
    obtain ⟨hjl, rfl⟩ := Array.getElem?_eq_some_iff.mp hlink
    exact hbefore j hlt (isStray_iff.mpr hj)
  · rintro ⟨⟨link, hlink, hstray⟩, hleast⟩
    obtain ⟨hi, rfl⟩ := Array.getElem?_eq_some_iff.mp hlink
    refine ⟨hi, isStray_iff.mpr hstray, fun j hlt hj => ?_⟩
    exact absurd (hleast ⟨_, Array.getElem?_eq_getElem (Nat.lt_trans hlt hi),
      isStray_iff.mp hj⟩) (Nat.not_le.mpr hlt)

/-- A draft without stray links is laid out, if its nodes can be put in order. -/
theorem laidOut_layOut {draft : NetworkDraft α} (hlinks : draft.links.size < 2 ^ 32 - 1)
    (hbuild : draft.build = .ok draft.layOut) : draft.LaidOut draft.layOut := by
  have hsound := (sound_build hbuild).2
  have hends : ∀ direction : Direction, ∀ node ∈ draft.links.toList.map direction.nearEnd,
      node.index < draft.nodes.size := by
    intro direction node hnode
    obtain ⟨link, hlink, rfl⟩ := List.mem_map.mp hnode
    obtain ⟨i, hi⟩ := List.mem_iff_getElem?.mp hlink
    rw [Array.getElem?_toList] at hi
    cases direction with
    | forward => exact of_decide_eq_true (hsound.ends i link hi .backward)
    | backward => exact of_decide_eq_true (hsound.ends i link hi .forward)
  have hlength : ∀ f : Link α → NodeId, (draft.links.toList.map f).length < 2 ^ 32 - 1 := by
    intro f
    rwa [List.length_map, Array.length_toList]
  refine ⟨rfl, ?_, ?_, ?_⟩
  · exact Adjacency.exact_ofEnds (hends .forward) (hlength _)
  · exact Adjacency.exact_ofEnds (hends .backward) (hlength _)
  · rintro search hnetwork htotal root rootTime direction maxCost target
    exact RoadSearch.unbroken_run htotal (hnetwork ▸ hsound)

theorem build_of_stray {draft : NetworkDraft α} {i : Nat}
    (h : draft.links.findIdx? draft.isStray = some i) : draft.build = .error (.strayLink i) := by
  rw [build, h]

omit [Scalar α] in
theorem strays_eq_empty_iff {draft : NetworkDraft α} :
    draft.strays = ∅ ↔ draft.links.findIdx? draft.isStray = none := by
  constructor
  · intro hempty
    cases hfind : draft.links.findIdx? draft.isStray with
    | none => rfl
    | some i =>
      have hmem := (findIdx?_isStray_eq_some_iff.mp hfind).1
      rw [hempty] at hmem
      exact hmem.elim
  · intro hnone
    refine Set.eq_empty_of_forall_notMem fun i hstray => ?_
    obtain ⟨link, hlink, hends⟩ := hstray
    have hnot := Array.findIdx?_eq_none_iff.mp hnone link (Array.mem_of_getElem? hlink)
    exact Bool.false_ne_true (hnot.symm.trans (isStray_iff.mpr hends))

/-- Without stray links all that is asked is an order of the nodes. -/
theorem build_of_no_stray {draft : NetworkDraft α}
    (h : draft.links.findIdx? draft.isStray = none) :
    (draft.Sortable → draft.build = .ok draft.layOut) ∧
      (¬ draft.Sortable → draft.build = .error .noOrder) := by
  have horder : Coord.requireOrder draft.nodes.toList = .ok () ↔ draft.Sortable := by
    rw [Coord.requireOrder_eq_ok_iff, Sortable, Array.length_toList]
    simp only [Array.mem_toList_iff]
  constructor
  · intro hsortable
    exact build_eq_ok.mpr ⟨h, horder.mpr hsortable, rfl⟩
  · intro hnot
    have herror : Coord.requireOrder draft.nodes.toList = .error .noOrder := by
      rw [← horder] at hnot
      unfold Coord.requireOrder at hnot ⊢
      split at hnot
      · next hmany => rw [if_pos hmany]
      · exact absurd rfl hnot
    rw [build, h]
    exact bind_eq_error.mpr (.inl herror)

/-- The first link with a stray end is refused. A draft without one is laid out if its nodes can be
put in order, and refused for that reason otherwise. -/
theorem build_exact (draft : NetworkDraft α) (hlinks : draft.links.size < 2 ^ 32 - 1) :
    (∀ i, draft.build = .error (.strayLink i) ↔ IsLeast draft.strays i) ∧
    (draft.strays = ∅ → draft.Sortable →
      ∃ network, draft.build = .ok network ∧ draft.LaidOut network) ∧
    (draft.strays = ∅ → ¬ draft.Sortable → draft.build = .error .noOrder) := by
  refine ⟨fun i => ⟨fun hbuild => ?_, fun hleast => ?_⟩, fun hempty hsortable => ?_,
    fun hempty hnot => ?_⟩
  · cases hfind : draft.links.findIdx? draft.isStray with
    | some j =>
      have hsame := (build_of_stray hfind).symm.trans hbuild
      cases hsame
      exact findIdx?_isStray_eq_some_iff.mp hfind
    | none =>
      by_cases hsortable : draft.Sortable
      · cases hbuild.symm.trans ((build_of_no_stray hfind).1 hsortable)
      · cases hbuild.symm.trans ((build_of_no_stray hfind).2 hsortable)
  · exact build_of_stray (findIdx?_isStray_eq_some_iff.mpr hleast)
  · have hbuild := (build_of_no_stray (strays_eq_empty_iff.mp hempty)).1 hsortable
    exact ⟨draft.layOut, hbuild, laidOut_layOut hlinks hbuild⟩
  · exact (build_of_no_stray (strays_eq_empty_iff.mp hempty)).2 hnot

end NetworkDraft

/-! ## Examples -/

/-- Four nodes of which the first and the last have no outgoing links, two links side by side, and
one that ends where it starts. -/
def closes : NetworkDraft Float :=
  { nodes := #[⟨0, 0⟩, ⟨100, 0⟩, ⟨200, 0⟩, ⟨300, 0⟩]
    links := #[{ LinkTraits.car 100 10 with source := ⟨2⟩, target := ⟨1⟩ },
      { LinkTraits.car 100 10 with source := ⟨1⟩, target := ⟨0⟩ },
      { LinkTraits.car 100 10 with source := ⟨2⟩, target := ⟨1⟩ },
      { LinkTraits.car 100 10 with source := ⟨1⟩, target := ⟨1⟩ }] }

theorem build_exact_closes : closes.links.size < 2 ^ 32 - 1 ∧ closes.strays = ∅ ∧
    closes.Sortable ∧ ∃ network, closes.build = .ok network ∧ closes.LaidOut network ∧
      network.outLinks ⟨1⟩ = .ok [⟨1⟩, ⟨3⟩] ∧ network.inLinks ⟨1⟩ = .ok [⟨0⟩, ⟨2⟩, ⟨3⟩] ∧
      network.outLinks ⟨3⟩ = .ok [] := by
  have hlinks : closes.links.size < 2 ^ 32 - 1 := by decide
  have hstrays : closes.strays = ∅ := NetworkDraft.strays_eq_empty_iff.mpr (by decide +kernel)
  have hsortable : closes.Sortable := .inl (by decide)
  obtain ⟨network, hbuild, hlaidOut⟩ :=
    (NetworkDraft.build_exact closes hlinks).2.1 hstrays hsortable
  refine ⟨hlinks, hstrays, hsortable, network, hbuild, hlaidOut, ?_⟩
  obtain ⟨-, -, rfl⟩ := NetworkDraft.build_eq_ok.mp hbuild
  exact ⟨rfl, rfl, rfl⟩

/-- Seven nodes, the first of them at an undefined position, and no link. -/
def unsortable : NetworkDraft Float :=
  { nodes := #[⟨0 / 0, 0 / 0⟩, ⟨1, 0⟩, ⟨2, 0⟩, ⟨3, 0⟩, ⟨4, 0⟩, ⟨5, 0⟩, ⟨6, 0⟩]
    links := #[] }

theorem not_sortable_unsortable : ¬ unsortable.Sortable := by
  rintro (hfew | hdefined)
  · exact absurd hfew (by decide)
  · exact absurd (hdefined ⟨0 / 0, 0 / 0⟩ (by simp [unsortable])) (by decide +kernel)

/-- A draft can be refused although no link is stray. -/
theorem not_built_undefined : ¬ ∀ draft : NetworkDraft Float,
    draft.nodes.size < 2 ^ 32 - 1 → draft.links.size < 2 ^ 32 - 1 →
      ((∃ breach, draft.build = .error breach) ↔ draft.strays.Nonempty) := by
  intro hall
  have hbuild : unsortable.build = .error .noOrder :=
    (NetworkDraft.build_of_no_stray (by simp [unsortable])).2 not_sortable_unsortable
  obtain ⟨i, link, hlink, -⟩ := (hall unsortable (by decide) (by decide)).mp ⟨_, hbuild⟩
  cases hlink

end ZoneSkims
