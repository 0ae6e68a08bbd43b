import Mathlib.Algebra.Group.Nat.Defs
import Mathlib.Data.List.Nodup
import ZoneSkims.Proofs.Road.Adjacency
import ZoneSkims.Road.Search
import ZoneSkims.Scalar.Binary

/-!
# Built networks and their paths

A network that was built has only links between its nodes, and at every node the links that end
there. A path is a chain of links; a search runs along one from the root outward, which backward
means against the links.

* `Network.Sound`: what building a network checks and lays out.
* `NetworkDraft.sound_build`: every built network is sound.
* `Network.Path`: chains of links in the order of travel, with their nodes.
* `Network.Leads`: chains of links in the order in which a search follows them.
* `Network.Leads.joins`: the second are the first, read in the direction of the search.
-/

namespace ZoneSkims

variable {α : Type}

namespace Network

/-! ## Links at a node -/

/-- The links over which a search leaves a node, in the order of their ids. -/
def leaving (network : Network α) (direction : Direction) (node : NodeId) : List LinkId :=
  Adjacency.endsAt (network.links.toList.map direction.nearEnd).zipIdx node.index

/-- What building a network checks and lays out. -/
structure Sound (network : Network α) : Prop where
  ends : ∀ (i : Nat) (link : Link α), network.links[i]? = some link →
    ∀ direction : Direction, network.contains (direction.farEnd link) = true
  links : ∀ (direction : Direction) (node : NodeId), network.contains node = true →
    direction.links network node = .ok (network.leaving direction node)

theorem mem_leaving {network : Network α} (hlinks : network.linkCount < 2 ^ 32)
    {direction : Direction} {node : NodeId} {id : LinkId} :
    id ∈ network.leaving direction node ↔
      ∃ link, network.links[id.index]? = some link ∧ direction.nearEnd link = node := by
  have hlength : (network.links.toList.map direction.nearEnd).length < 2 ^ 32 := by
    rwa [List.length_map, Array.length_toList]
  rw [leaving, Adjacency.mem_endsAt hlength, List.getElem?_map, Array.getElem?_toList,
    Option.map_eq_some_iff]

/-- The links at a node are in the order of their ids. -/
theorem leaving_pairwise {network : Network α} (hlinks : network.linkCount < 2 ^ 32)
    (direction : Direction) (node : NodeId) :
    (network.leaving direction node).Pairwise (· < ·) := by
  apply Adjacency.pairwise_endsAt
  rwa [List.length_map, Array.length_toList]

theorem length_leaving (network : Network α) (direction : Direction) (node : NodeId) :
    (network.leaving direction node).length =
      network.links.toList.countP fun link => (direction.nearEnd link).index = node.index := by
  rw [leaving, Adjacency.length_endsAt, List.countP_map]
  rfl

/-- How many links were not followed yet, because the node that they leave is not settled. -/
def openLinks (network : Network α) (direction : Direction) (settled : List NodeId) : Nat :=
  network.links.toList.countP fun link => decide (direction.nearEnd link ∉ settled)

theorem openLinks_cons (network : Network α) (direction : Direction) {node : NodeId}
    {settled : List NodeId} (hnode : node ∉ settled) :
    network.openLinks direction (node :: settled) + (network.leaving direction node).length =
      network.openLinks direction settled := by
  rw [length_leaving]
  unfold openLinks
  induction network.links.toList with
  | nil => rfl
  | cons link links ih =>
    simp only [List.countP_cons, decide_eq_true_eq, List.mem_cons, not_or] at ih ⊢
    by_cases h : direction.nearEnd link = node
    · subst h
      rw [if_neg (fun h => h.1 rfl), if_pos rfl, if_pos hnode]
      omega
    · have hindex : (direction.nearEnd link).index ≠ node.index := fun h' =>
        h (Id.index_injective h')
      rw [if_neg hindex]
      by_cases hmem : direction.nearEnd link ∈ settled
      · rw [if_neg (fun h' => h'.2 hmem), if_neg (fun h' => h' hmem)]
        omega
      · rw [if_pos ⟨h, hmem⟩, if_pos hmem]
        omega

end Network

namespace NetworkDraft

/-- The network of a draft, with the links at every node. -/
def layOut (draft : NetworkDraft α) : Network α :=
  { draft with
    outgoing := Adjacency.ofEnds draft.nodes.size (draft.links.toList.map Link.source)
    incoming := Adjacency.ofEnds draft.nodes.size (draft.links.toList.map Link.target) }

theorem build_eq_ok [Scalar α] {draft : NetworkDraft α} {network : Network α} :
    draft.build = .ok network ↔ draft.links.findIdx? draft.isStray = none ∧
      Coord.requireOrder draft.nodes.toList = .ok () ∧ draft.layOut = network := by
  unfold build
  cases hstray : draft.links.findIdx? draft.isStray with
  | some i => exact iff_of_false nofun fun h => nomatch h.1
  | none =>
    refine bind_eq_ok.trans ⟨?_, ?_⟩
    · rintro ⟨_, horder, hnetwork⟩
      cases hnetwork
      exact ⟨rfl, horder, rfl⟩
    · rintro ⟨-, horder, rfl⟩
      exact ⟨(), horder, rfl⟩

theorem linkCount_of_build [Scalar α] {draft : NetworkDraft α} {network : Network α}
    (h : draft.build = .ok network) : network.linkCount = draft.links.size := by
  obtain ⟨-, -, rfl⟩ := build_eq_ok.mp h
  rfl

theorem linkCount_lt_of_build [Scalar α] {draft : NetworkDraft α} {network : Network α}
    (h : draft.build = .ok network) (hlinks : draft.links.size < 2 ^ 32 - 1) :
    network.linkCount < 2 ^ 32 := by
  rw [linkCount_of_build h]
  omega

/-- Every built network is sound. -/
theorem sound_build [Scalar α] {draft : NetworkDraft α} {network : Network α}
    (h : draft.build = .ok network) : network.toNetworkDraft = draft ∧ network.Sound := by
  obtain ⟨hstray, -, rfl⟩ := build_eq_ok.mp h
  have hends : ∀ link ∈ draft.links.toList, ∀ direction : Direction,
      (direction.nearEnd link).index < draft.nodes.size := by
    intro link hlink direction
    have hnot := Array.findIdx?_eq_none_iff.mp hstray link (Array.mem_toList_iff.mp hlink)
    rw [isStray, Bool.or_eq_false_iff, decide_eq_false_iff_not, decide_eq_false_iff_not] at hnot
    cases direction with
    | forward => exact Nat.lt_of_not_le hnot.1
    | backward => exact Nat.lt_of_not_le hnot.2
  refine ⟨rfl, fun i link hlink direction => ?_, fun direction node hnode => ?_⟩
  · have hmem := Array.mem_toList_iff.mpr (Array.mem_of_getElem? hlink)
    cases direction with
    | forward => exact decide_eq_true (hends link hmem .backward)
    | backward => exact decide_eq_true (hends link hmem .forward)
  · have hlist : ∀ node ∈ draft.links.toList.map direction.nearEnd,
        node.index < draft.nodes.size := by
      intro node hnode
      obtain ⟨link, hlink, rfl⟩ := List.mem_map.mp hnode
      exact hends link hlink direction
    cases direction with
    | forward => exact Adjacency.links_ofEnds hlist (of_decide_eq_true hnode)
    | backward => exact Adjacency.links_ofEnds hlist (of_decide_eq_true hnode)

end NetworkDraft

namespace Network

/-! ## Paths -/

/-- The links lead from a node to another in the order of travel, and the list holds all nodes on
the way, both ends included. -/
inductive Path (network : Network α) : NodeId → List LinkId → List NodeId → NodeId → Prop
  | stay (node : NodeId) : Path network node [] [node] node
  | go {id : LinkId} {link : Link α} {links : List LinkId} {nodes : List NodeId} {goal : NodeId} :
    network.links[id.index]? = some link → Path network link.target links nodes goal →
      Path network link.source (id :: links) (link.source :: nodes) goal

/-- A search can follow the links one after the other from the root, and the list holds the nodes
in the order in which it comes to them. -/
inductive Leads (network : Network α) (direction : Direction) (root : NodeId) :
    List LinkId → List NodeId → NodeId → Prop
  | root : Leads network direction root [] [root] root
  | follow {ids : List LinkId} {nodes : List NodeId} {id : LinkId} {link : Link α} :
    Leads network direction root ids nodes (direction.nearEnd link) →
      network.links[id.index]? = some link →
      Leads network direction root (ids ++ [id]) (nodes ++ [direction.farEnd link])
        (direction.farEnd link)

theorem Path.concat {network : Network α} {start goal : NodeId} {links : List LinkId}
    {nodes : List NodeId} {id : LinkId} {link : Link α} (h : network.Path start links nodes goal)
    (hlink : network.links[id.index]? = some link) (hgoal : link.source = goal) :
    network.Path start (links ++ [id]) (nodes ++ [link.target]) link.target := by
  induction h with
  | stay node =>
    subst hgoal
    exact Path.go hlink (Path.stay link.target)
  | go hfirst _ ih => exact Path.go hfirst (ih hgoal)

end Network

namespace Direction

/-- Turns the order in which a search follows links into the order of travel, and back. -/
def turn {β : Type} : Direction → List β → List β
  | forward, xs => xs
  | backward, xs => xs.reverse

theorem turn_turn {β : Type} (direction : Direction) (xs : List β) :
    direction.turn (direction.turn xs) = xs := by
  cases direction with
  | forward => rfl
  | backward => exact List.reverse_reverse xs

theorem mem_turn {β : Type} {direction : Direction} {xs : List β} {x : β} :
    x ∈ direction.turn xs ↔ x ∈ xs := by
  cases direction with
  | forward => exact Iff.rfl
  | backward => exact List.mem_reverse

theorem nodup_turn {β : Type} {direction : Direction} {xs : List β} (h : xs.Nodup) :
    (direction.turn xs).Nodup := by
  cases direction with
  | forward => exact h
  | backward => exact List.nodup_reverse.mpr h

/-- The links are a path from the root to the node, or backward from the node to the root. -/
def Joins (direction : Direction) (network : Network α) (root node : NodeId)
    (links : List LinkId) (nodes : List NodeId) : Prop :=
  match direction with
  | forward => network.Path root links nodes node
  | backward => network.Path node links nodes root

end Direction

namespace Network

/-- What a search follows is a path in the order of travel. -/
theorem Leads.joins {network : Network α} {direction : Direction} {root node : NodeId}
    {ids : List LinkId} {nodes : List NodeId} (h : network.Leads direction root ids nodes node) :
    direction.Joins network root node (direction.turn ids) (direction.turn nodes) := by
  induction h with
  | root =>
    cases direction with
    | forward => exact Path.stay root
    | backward => exact Path.stay root
  | @follow ids nodes id link _ hlink ih =>
    cases direction with
    | forward => exact Path.concat ih hlink rfl
    | backward =>
      simp only [Direction.turn, List.reverse_concat]
      exact Path.go hlink ih

/-- All nodes that a search comes to belong to the network. -/
theorem Leads.contains {network : Network α} {direction : Direction} {root node : NodeId}
    {ids : List LinkId} {nodes : List NodeId} (h : network.Leads direction root ids nodes node)
    (hsound : network.Sound) (hroot : network.contains root = true) :
    ∀ n ∈ nodes, network.contains n = true := by
  induction h with
  | root => simpa using hroot
  | follow _ hlink ih =>
    intro n hn
    rcases List.mem_append.mp hn with hn | hn
    · exact ih n hn
    · obtain rfl := List.mem_singleton.mp hn
      exact hsound.ends _ _ hlink direction

theorem Leads.length {network : Network α} {direction : Direction} {root node : NodeId}
    {ids : List LinkId} {nodes : List NodeId} (h : network.Leads direction root ids nodes node) :
    nodes.length = ids.length + 1 := by
  induction h with
  | root => rfl
  | follow _ _ ih => simp [ih]

end Network

/-! ## An example -/

/-- Three crossings, a long street from the first to the last one and a way around. -/
def crossings : NetworkDraft Float :=
  let draft := (NetworkDraft.empty.addNode ⟨0, 0⟩).2
  let draft := (draft.addNode ⟨500, 0⟩).2
  let draft := (draft.addNode ⟨500, 500⟩).2
  let draft := (draft.addLink ⟨0⟩ ⟨1⟩ (.car 500 10)).2
  let draft := (draft.addLink ⟨1⟩ ⟨2⟩ (.car 500 10)).2
  (draft.addLink ⟨0⟩ ⟨2⟩ (.car 900 5)).2

theorem build_crossings : crossings.build = .ok crossings.layOut :=
  NetworkDraft.build_eq_ok.mpr ⟨by decide +kernel, rfl, rfl⟩

end ZoneSkims
