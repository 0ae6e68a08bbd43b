import ZoneSkims.Proofs.Road.Lockstep
import ZoneSkims.Proofs.Road.TimeShift

/-!
# Searches on the reversed network

A search backward from a node follows the links against their direction. On the network with the
ends of every link exchanged, the search forward from the same node follows the same links, in the
same order and with the same values, as long as these do not depend on the time. So both fail in the
same way, or both settle the same nodes with the same labels. Only their clocks run in opposite
directions, and the paths are each other's reverse.

* `NetworkDraft.reversed`, `Network.reversed`: the ends of every link exchanged.
* `NetworkDraft.build_reversed`: the reversed network is what the reversed draft builds.
* `PathTree.Mirrors`: what the trees of the two searches have in common.
* `RoadSearch.lockstep_reversed`, `RoadSearch.treeTo_mirrors_treeFrom`: the two searches side by
  side.
-/

namespace ZoneSkims

variable {α : Type}

/-! ## Reversed networks -/

/-- The other direction. -/
def Direction.opposite : Direction → Direction
  | forward => backward
  | backward => forward

/-- The link with its ends exchanged. -/
def Link.reversed (link : Link α) : Link α :=
  { link with source := link.target, target := link.source }

/-- The draft with the ends of every link exchanged. -/
def NetworkDraft.reversed (draft : NetworkDraft α) : NetworkDraft α :=
  { draft with links := draft.links.map Link.reversed }

/-- The network with the ends of every link exchanged. -/
def Network.reversed (network : Network α) : Network α :=
  { network.toNetworkDraft.reversed with
    outgoing := network.incoming
    incoming := network.outgoing }

theorem Direction.farEnd_opposite (direction : Direction) (link : Link α) :
    direction.opposite.farEnd link.reversed = direction.farEnd link := by
  cases direction <;> rfl

theorem Direction.nearEnd_opposite (direction : Direction) (link : Link α) :
    direction.opposite.nearEnd link.reversed = direction.nearEnd link := by
  cases direction <;> rfl

theorem Direction.links_opposite (direction : Direction) (network : Network α) (node : NodeId) :
    direction.opposite.links network.reversed node = direction.links network node := by
  cases direction <;> rfl

namespace NetworkDraft

theorem isStray_reversed (draft : NetworkDraft α) (link : Link α) :
    draft.reversed.isStray link.reversed = draft.isStray link :=
  Bool.or_comm _ _

theorem layOut_reversed (draft : NetworkDraft α) :
    draft.reversed.layOut = draft.layOut.reversed := by
  have hends (f g : Link α → NodeId) (h : ∀ link : Link α, f link.reversed = g link) :
      (draft.links.map Link.reversed).toList.map f = draft.links.toList.map g := by
    rw [Array.toList_map, List.map_map]
    exact List.map_congr_left fun link _ => h link
  simp only [layOut, reversed, Network.reversed, hends Link.source Link.target fun _ => rfl,
    hends Link.target Link.source fun _ => rfl]

/-- A network is built of the reversed draft, and it is the reversed network. -/
theorem build_reversed [Scalar α] {draft : NetworkDraft α} {network : Network α}
    (h : draft.build = .ok network) : draft.reversed.build = .ok network.reversed := by
  obtain ⟨hstray, horder, rfl⟩ := build_eq_ok.mp h
  refine build_eq_ok.mpr ⟨?_, horder, layOut_reversed draft⟩
  rw [Array.findIdx?_eq_none_iff] at hstray ⊢
  intro link hlink
  obtain ⟨original, horiginal, rfl⟩ := Array.mem_map.mp hlink
  rw [isStray_reversed]
  exact hstray original horiginal

end NetworkDraft

open RoadError (FailAlike)

variable [Scalar α]

namespace RoadSearch

/-- The search with the same link functions on the reversed network. -/
def reversed (search : RoadSearch α) : RoadSearch α :=
  { search with network := search.network.reversed }

/-- A search keeps up with the one in the other direction on the reversed network. -/
theorem lockstep_reversed {R : α → α → Prop} {search : RoadSearch α} {direction : Direction}
    (htimeless : search.Timeless)
    (hafter : ∀ time time' travelTime, Scalar.isFinite travelTime = true → R time time' →
      R (direction.after time travelTime) (direction.opposite.after time' travelTime)) :
    Lockstep R search search.reversed direction direction.opposite where
  timeless := htimeless
  travelTime_eq := rfl
  cost_eq := rfl
  nodeCount_eq := rfl
  linkCount_eq := Array.size_map
  links_eq := direction.links_opposite search.network
  link id := by
    have hlink : search.reversed.network.link id = Link.reversed <$> search.network.link id :=
      fetch_map Link.reversed search.network.links id.index
    rw [hlink]
    cases search.network.link id with
    | error b => exact .error rfl
    | ok link => exact .ok ⟨direction.farEnd_opposite link, rfl⟩
  after := hafter

end RoadSearch

/-! ## Clocks -/

/-- Sums and differences of finite scalars are exact. -/
structure Scalar.ExactSums (α : Type) [Scalar α] : Prop where
  isFinite_add {a b : α} : isFinite a = true → isFinite b = true → isFinite (a + b) = true
  isFinite_sub {a b : α} : isFinite a = true → isFinite b = true → isFinite (a - b) = true
  sub_self {a : α} : isFinite a = true → a - a = 0
  sub_sub {a b c : α} : isFinite a = true → isFinite b = true → isFinite c = true →
    a - (b - c) = a - b + c
  add_sub {a b c : α} : isFinite a = true → isFinite b = true → isFinite c = true →
    a + b - c = a - c + b

open Exact in
theorem Exact.exactSums {K : Type} [Field K] [LinearOrder K] : Scalar.ExactSums (Exact K) where
  isFinite_add := isFinite_add
  isFinite_sub ha hb := by
    obtain ⟨x, rfl⟩ := eq_finite_of_isFinite ha
    obtain ⟨y, rfl⟩ := eq_finite_of_isFinite hb
    rfl
  sub_self ha := by
    obtain ⟨x, rfl⟩ := eq_finite_of_isFinite ha
    rw [finite_sub]
    exact congrArg finite (sub_self x)
  sub_sub ha hb hc := by
    obtain ⟨x, rfl⟩ := eq_finite_of_isFinite ha
    obtain ⟨y, rfl⟩ := eq_finite_of_isFinite hb
    obtain ⟨z, rfl⟩ := eq_finite_of_isFinite hc
    rw [finite_sub, finite_sub, finite_sub]
    exact congrArg finite (sub_sub_eq_add_sub x y z |>.trans (add_sub_right_comm x z y))
  add_sub ha hb hc := by
    obtain ⟨x, rfl⟩ := eq_finite_of_isFinite ha
    obtain ⟨y, rfl⟩ := eq_finite_of_isFinite hb
    obtain ⟨z, rfl⟩ := eq_finite_of_isFinite hc
    change finite (x + y) - finite z = finite x - finite z + finite y
    rw [finite_sub, finite_sub]
    exact congrArg finite (add_sub_right_comm x y z)

/-- Two clocks have passed the same seconds since they started, the first one running back. -/
def Mirrored (start start' time time' : α) : Prop :=
  ∃ seconds : List α, (∀ s ∈ seconds, Scalar.isFinite s = true) ∧
    time = seconds.foldl (· - ·) start ∧ time' = seconds.foldl (· + ·) start'

namespace Mirrored

variable {start start' time time' : α}

theorem refl (start start' : α) : Mirrored start start' start start' :=
  ⟨[], by simp, rfl, rfl⟩

theorem step (h : Mirrored start start' time time') {travelTime : α}
    (hfinite : Scalar.isFinite travelTime = true) :
    Mirrored start start' (time - travelTime) (time' + travelTime) := by
  obtain ⟨seconds, hseconds, rfl, rfl⟩ := h
  refine ⟨seconds ++ [travelTime], ?_, by simp, by simp⟩
  intro s hs
  rcases List.mem_append.mp hs with hs | hs
  · exact hseconds s hs
  · exact List.mem_singleton.mp hs ▸ hfinite

/-- In exact arithmetic, what the first clock has run back is what the second has run on. -/
theorem sub_eq_sub (h : Mirrored start start' time time') (hexact : Scalar.ExactSums α)
    (hstart : Scalar.isFinite start = true) (hstart' : Scalar.isFinite start' = true) :
    start - time = time' - start' := by
  obtain ⟨seconds, hseconds, rfl, rfl⟩ := h
  have hboth : Scalar.isFinite (seconds.foldl (· - ·) start) = true ∧
      Scalar.isFinite (seconds.foldl (· + ·) start') = true ∧
        start - seconds.foldl (· - ·) start = seconds.foldl (· + ·) start' - start' := by
    induction seconds using List.reverseRecOn with
    | nil => exact ⟨hstart, hstart', (hexact.sub_self hstart).trans (hexact.sub_self hstart').symm⟩
    | append_singleton seconds s ih =>
      obtain ⟨hback, hon, heq⟩ := ih fun s hs => hseconds s (List.mem_append_left _ hs)
      have hs := hseconds s (by simp)
      rw [List.foldl_concat, List.foldl_concat, hexact.sub_sub hstart hback hs,
        hexact.add_sub hon hs hstart', heq]
      exact ⟨hexact.isFinite_sub hback hs, hexact.isFinite_add hon hs, rfl⟩
  exact hboth.2.2

end Mirrored

/-! ## Trees -/

/-- Trees of searches in opposite directions, the first one on the network and backward. They have
settled the same nodes in the same order, with the same costs, distances and links. Their clocks
are mirrored, and each path of one is the reverse of the other's. -/
structure PathTree.Mirrors (network : Network α) (tree other : PathTree α) : Prop
    extends tree.Agrees other where
  time {node : NodeId} {label label' : Label α} : tree.label? node = some label →
    other.label? node = some label' →
      Mirrored tree.rootTime other.rootTime label.time label'.time
  elapsed {node : NodeId} {label label' : Label α} : Scalar.ExactSums α →
    Scalar.isFinite tree.rootTime = true → Scalar.isFinite other.rootTime = true →
      tree.label? node = some label → other.label? node = some label' →
        tree.rootTime - label.time = label'.time - other.rootTime
  path (node : NodeId) :
    other.pathTo? network.reversed node = List.reverse <$> tree.pathTo? network node

namespace SearchState.Alike

variable {state other : SearchState α} {root : NodeId} {direction : Direction}
  {rootTime rootTime' : α}

omit [Scalar α] in
/-- The links back to the root are the same in both trees. -/
theorem trace?_eq (h : state.Alike R other) (direction : Direction) (network : Network α)
    (steps : Nat) (node : NodeId) :
    (tree root direction.opposite rootTime' other).trace? network.reversed steps node =
      (tree root direction rootTime state).trace? network steps node := by
  induction steps generalizing node with
  | zero => rfl
  | succ steps ih =>
    have hrel := h.labelAt node
    rw [PathTree.trace?, PathTree.trace?]
    change Option.bind (other.labelAt node) _ = Option.bind (state.labelAt node) _
    generalize state.labelAt node = known at hrel
    generalize other.labelAt node = known' at hrel
    cases hrel with
    | none => rfl
    | @some label label' halike =>
      rw [Option.bind_some, Option.bind_some, halike.pred]
      cases label'.pred with
      | none => rfl
      | some id =>
        have hlink : network.reversed.links[id.index]? =
            Link.reversed <$> network.links[id.index]? := Array.getElem?_map
        simp only [hlink]
        cases network.links[id.index]? with
        | none => rfl
        | some link =>
          change Option.bind (PathTree.trace? _ network.reversed steps
              (direction.opposite.nearEnd link.reversed)) _ =
            Option.bind (PathTree.trace? _ network steps (direction.nearEnd link)) _
          rw [Direction.nearEnd_opposite, ih]

omit [Scalar α] in
/-- The links from a node back to a root are the path of a search backward, and the reverse of the
path of a search forward. -/
theorem pathTo?_eq (h : state.Alike R other) (network : Network α) (node : NodeId) :
    (tree root .forward rootTime' other).pathTo? network.reversed node =
      List.reverse <$> (tree root .backward rootTime state).pathTo? network node := by
  have hrel := h.label? root .backward rootTime rootTime' node
  have htrace : (tree root .forward rootTime' other).trace? network.reversed state.labels.size
      node = (tree root .backward rootTime state).trace? network state.labels.size node :=
    h.trace?_eq .backward network state.labels.size node
  unfold PathTree.pathTo?
  change Option.bind ((tree root .backward rootTime' other).label? node) (fun _ =>
      Option.bind (PathTree.trace? _ network.reversed other.labels.size node) _) =
    List.reverse <$> Option.bind ((tree root .backward rootTime state).label? node) (fun _ =>
      Option.bind (PathTree.trace? _ network state.labels.size node) _)
  generalize (tree root .backward rootTime' other).label? node = known' at hrel
  generalize (tree root .backward rootTime state).label? node = known at hrel
  cases hrel with
  | none => rfl
  | some _ =>
    rw [Option.bind_some, Option.bind_some, ← h.size, htrace]
    cases (tree root .backward rootTime state).trace? network state.labels.size node with
    | none => rfl
    | some links => rfl

theorem mirrors {network : Network α} (h : state.Alike (Mirrored rootTime rootTime') other) :
    (tree root .backward rootTime state).Mirrors network
      (tree root .forward rootTime' other) := by
  have htime {node : NodeId} {label label' : Label α}
      (hlabel : (tree root .backward rootTime state).label? node = some label)
      (hlabel' : (tree root .forward rootTime' other).label? node = some label') :
      Mirrored rootTime rootTime' label.time label'.time := by
    have hrel := h.label? root .backward rootTime rootTime' node
    rw [hlabel, show (tree root .backward rootTime' other).label? node = some label' from hlabel']
      at hrel
    cases hrel with
    | some halike => exact halike.time
  have hagrees :
      (tree root .backward rootTime state).Agrees (tree root .backward rootTime' other) := h.agrees
  exact
    { settled := hagrees.settled
      cost := hagrees.cost
      distance := hagrees.distance
      pred := hagrees.pred
      time := htime
      elapsed := fun hexact hroot hroot' hlabel hlabel' =>
        (htime hlabel hlabel').sub_eq_sub hexact hroot hroot'
      path := h.pathTo?_eq network }

end SearchState.Alike

/-- A search backward on a built network and the search forward on the reversed network either fail
in the same way, or end in trees that mirror each other. -/
theorem RoadSearch.treeTo_mirrors_treeFrom (search : RoadSearch α) {draft : NetworkDraft α}
    (hbuild : draft.build = .ok search.network) (htimeless : search.Timeless) (root : NodeId)
    (rootTime rootTime' maxCost : α) :
    draft.reversed.build = .ok search.reversed.network ∧
      Paired FailAlike (PathTree.Mirrors search.network) (search.treeTo root rootTime maxCost)
        (search.reversed.treeFrom root rootTime' maxCost) := by
  refine ⟨NetworkDraft.build_reversed hbuild, ?_⟩
  have hafter : ∀ time time' travelTime : α, Scalar.isFinite travelTime = true →
      Mirrored rootTime rootTime' time time' →
        Mirrored rootTime rootTime' (Direction.backward.after time travelTime)
          (Direction.forward.after time' travelTime) := fun _ _ _ hfinite h => h.step hfinite
  refine ((lockstep_reversed htimeless hafter).run (Mirrored.refl rootTime rootTime')).mono ?_
  rintro _ _ ⟨final, final', rfl, rfl, halike⟩
  exact halike.mirrors

/-! ## An example -/

open Exact

/-- A street of 100 metres and one of 200 metres behind it. -/
def twoStreets : NetworkDraft (Exact ℚ) where
  nodes := #[⟨finite 0, finite 0⟩, ⟨finite 100, finite 0⟩, ⟨finite 300, finite 0⟩]
  links :=
    #[{ length := finite 100, freeSpeed := finite 10, capacity := finite 1800
        modes := ModeSet.single .car, source := ⟨0⟩, target := ⟨1⟩ },
      { length := finite 200, freeSpeed := finite 10, capacity := finite 1800
        modes := ModeSet.single .car, source := ⟨1⟩, target := ⟨2⟩ }]

noncomputable def twoStreetsSearch : RoadSearch (Exact ℚ) where
  network := twoStreets.layOut
  travelTime := .freeFlow twoStreets.layOut
  cost := .timeCost (.freeFlow twoStreets.layOut)

/-- Half a minute before an arrival is as long as half a minute after a departure. -/
theorem mirrored_twoStreets : ∃ back forth label label',
    twoStreetsSearch.treeTo ⟨2⟩ (finite 1000) (finite 500) = .ok back ∧
      twoStreetsSearch.reversed.treeFrom ⟨2⟩ (finite 60) (finite 500) = .ok forth ∧
      back.Mirrors twoStreets.layOut forth ∧
      back.label? ⟨0⟩ = some label ∧ forth.label? ⟨0⟩ = some label' ∧ label.time = finite 970 ∧
      finite 1000 - label.time = label'.time - finite 60 := by
  have hbuild : twoStreets.build = .ok twoStreetsSearch.network :=
    NetworkDraft.build_eq_ok.mpr ⟨by decide +kernel, rfl, rfl⟩
  have htimeless : twoStreetsSearch.Timeless :=
    ⟨(LinkFunction.BuiltIn.freeFlow _).timeless rfl,
      (LinkFunction.BuiltIn.timeCost (.freeFlow _)).timeless rfl⟩
  have hsearched : ((twoStreetsSearch.treeTo ⟨2⟩ (finite 1000) (finite 500)).toOption.any
      fun back => decide (back.time? ⟨0⟩ = some (finite 970))) = true := by
    decide +kernel
  obtain ⟨back, hback, htime⟩ := exists_of_any hsearched
  obtain ⟨-, hpaired⟩ := twoStreetsSearch.treeTo_mirrors_treeFrom hbuild htimeless ⟨2⟩ (finite 1000)
    (finite 60) (finite 500)
  rw [hback] at hpaired
  obtain ⟨forth, hforth, hmirrors⟩ := hpaired.exists_ok
  obtain ⟨label, hlabel, hlabelTime⟩ := Option.map_eq_some_iff.mp htime
  have hcost := hmirrors.cost ⟨0⟩
  rw [PathTree.cost?, PathTree.cost?, hlabel] at hcost
  obtain ⟨label', hlabel', -⟩ := Option.map_eq_some_iff.mp hcost.symm
  have helapsed := hmirrors.elapsed exactSums (RoadSearch.rootTime_of_run hback ▸ rfl)
    (RoadSearch.rootTime_of_run hforth ▸ rfl) hlabel hlabel'
  rw [RoadSearch.rootTime_of_run hback, RoadSearch.rootTime_of_run hforth] at helapsed
  exact ⟨back, forth, label, label', hback, hforth, hmirrors, hlabel, hlabel', hlabelTime, helapsed⟩

end ZoneSkims
