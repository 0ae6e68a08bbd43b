import ZoneSkims.Proofs.Road.Canonical

/-!
# Networks of one mode

A network is cut down to the links that one mode may use by numbering these anew in their order. So
the new ids go to the old ones by an increasing map, links keep their ends and traits, and the links
at a node keep their order. What a search follows on the smaller network are then the paths of the
whole one that keep to the links of the mode.

* `Network.original`: the id that a link had before.
* `Network.IsPart`: how the network of one mode lies in the whole one.
* `Network.restrictTo_idem`, `Network.restrictTo_comm`: cutting down twice, and by two modes.
* `Network.IsPart.map_leaving`, `Network.IsPart.exists_path_iff`: the links at a node, and the paths.
* `Network.restrictTo_keeps_graph`: the main result.
-/

namespace ZoneSkims

variable {α : Type}

namespace Network

/-! ## The links of a mode -/

/-- The mode may use the link of an id. -/
def allows (network : Network α) (mode : Mode) (id : LinkId) : Bool :=
  network.links[id.index]?.any fun link => link.modes.contains mode

/-- The links that a mode may use, each with its position. -/
def usable (network : Network α) (mode : Mode) : List (Link α × Nat) :=
  network.links.toList.zipIdx.filter fun entry => entry.1.modes.contains mode

/-- The id in the whole network of a link of the network of one mode. -/
def original (network : Network α) (mode : Mode) (id : LinkId) : LinkId :=
  ((network.usable mode)[id.index]?).elim id fun entry => Id.ofIndex entry.2

/-- The network of one mode before it is laid out. -/
def restricted (network : Network α) (mode : Mode) : NetworkDraft α :=
  { network.toNetworkDraft with
    links := network.links.filter fun link => link.modes.contains mode }

variable {network : Network α} {mode : Mode}

theorem map_fst_usable (network : Network α) (mode : Mode) :
    (network.usable mode).map Prod.fst = (network.restricted mode).links.toList := by
  rw [restricted, Array.toList_filter, ← List.zipIdx_map_fst 0 network.links.toList,
    List.filter_map]
  rfl

theorem pairwise_usable (network : Network α) (mode : Mode) :
    (network.usable mode).Pairwise fun entry entry' => entry.2 < entry'.2 :=
  (pairwise_zipIdx _).filter _

theorem mem_usable {entry : Link α × Nat} : entry ∈ network.usable mode ↔
    network.links[entry.2]? = some entry.1 ∧ entry.1.modes.contains mode = true := by
  rw [usable, List.mem_filter, List.mem_zipIdx_iff_getElem?, Array.getElem?_toList]

/-- A link of the network of one mode, and where it comes from. -/
theorem exists_usable {i : Nat} (hi : i < (network.restricted mode).links.size) :
    ∃ entry, (network.usable mode)[i]? = some entry ∧
      (network.restricted mode).links[i]? = some entry.1 := by
  have hlinks := congrArg (·[i]?) (map_fst_usable network mode)
  simp only [List.getElem?_map, Array.getElem?_toList] at hlinks
  rw [Array.getElem?_eq_getElem hi] at hlinks ⊢
  obtain ⟨entry, hentry, hlink⟩ := Option.map_eq_some_iff.mp hlinks
  exact ⟨entry, hentry, congrArg some hlink.symm⟩

theorem original_eq {id : LinkId} {entry : Link α × Nat}
    (h : (network.usable mode)[id.index]? = some entry) :
    network.original mode id = Id.ofIndex entry.2 := by
  rw [original, h]
  rfl

theorem index_original (hlinks : network.linkCount < 2 ^ 32) {id : LinkId}
    {entry : Link α × Nat} (h : (network.usable mode)[id.index]? = some entry) :
    (network.original mode id).index = entry.2 := by
  have hlt := (Array.getElem?_eq_some_iff.mp (mem_usable.mp (List.mem_of_getElem? h)).1).1
  rw [original_eq h, Id.index_ofIndex (Nat.lt_trans hlt hlinks)]

/-! ## Parts of a network -/

/-- The part has the nodes of the whole, and its links are those of the whole that a mode may use,
numbered anew in their order. -/
structure IsPart (part whole : Network α) (mode : Mode) (original : LinkId → LinkId) : Prop where
  nodes : part.nodes = whole.nodes
  increasing : ∀ id id' : LinkId, id < id' → id'.index < part.linkCount →
    original id < original id'
  link : ∀ id : LinkId, id.index < part.linkCount →
    ∃ link, part.link id = .ok link ∧ whole.link (original id) = .ok link
  onto : ∀ id : LinkId, whole.allows mode id = true ↔
    ∃ id' : LinkId, id'.index < part.linkCount ∧ original id' = id

theorem link_eq_ok {id : LinkId} {link : Link α} :
    network.link id = .ok link ↔ network.links[id.index]? = some link :=
  fetch_eq_ok

theorem allows_iff {id : LinkId} : network.allows mode id = true ↔
    ∃ link, network.links[id.index]? = some link ∧ link.modes.contains mode = true := by
  rw [allows, Option.any_eq_true]

/-- The network of one mode is a part of the whole one. -/
theorem isPart_layOut (hlinks : network.linkCount < 2 ^ 32) (mode : Mode) :
    (network.restricted mode).layOut.IsPart network mode (network.original mode) where
  nodes := rfl
  increasing id id' hlt hid' := by
    have hindex := Id.lt_iff_index_lt.mp hlt
    obtain ⟨entry, hentry, -⟩ := exists_usable (Nat.lt_trans hindex hid')
    obtain ⟨entry', hentry', -⟩ := exists_usable hid'
    rw [Id.lt_iff_index_lt, index_original hlinks hentry, index_original hlinks hentry']
    obtain ⟨hi, rfl⟩ := List.getElem?_eq_some_iff.mp hentry
    obtain ⟨hi', rfl⟩ := List.getElem?_eq_some_iff.mp hentry'
    exact List.pairwise_iff_getElem.mp (pairwise_usable network mode) _ _ hi hi' hindex
  link id hid := by
    obtain ⟨entry, hentry, hlink⟩ := exists_usable hid
    refine ⟨entry.1, link_eq_ok.mpr hlink, link_eq_ok.mpr ?_⟩
    rw [index_original hlinks hentry]
    exact (mem_usable.mp (List.mem_of_getElem? hentry)).1
  onto id := by
    rw [allows_iff]
    constructor
    · rintro ⟨link, hlink, hmode⟩
      have hmem : (link, id.index) ∈ network.usable mode := mem_usable.mpr ⟨hlink, hmode⟩
      obtain ⟨i, hi⟩ := List.mem_iff_getElem?.mp hmem
      have hsize : i < (network.restricted mode).links.size := by
        rw [← Array.length_toList, ← map_fst_usable, List.length_map]
        exact (List.getElem?_eq_some_iff.mp hi).1
      have hcount : (network.restricted mode).links.size ≤ network.linkCount :=
        Array.size_filter_le
      have hindex : (Id.ofIndex i : LinkId).index = i := Id.index_ofIndex (by omega)
      refine ⟨Id.ofIndex i, hindex.trans_lt hsize, ?_⟩
      rw [original_eq (hindex.symm ▸ hi)]
      exact Id.ofIndex_index id
    · rintro ⟨id', hid', rfl⟩
      obtain ⟨entry, hentry, -⟩ := exists_usable hid'
      have hentry' := mem_usable.mp (List.mem_of_getElem? hentry)
      exact ⟨entry.1, index_original hlinks hentry ▸ hentry'.1, hentry'.2⟩

namespace IsPart

variable {part whole : Network α} {original : LinkId → LinkId}

/-- The links at a node of the part are those at the node of the whole that the mode may use, in the
same order. -/
theorem map_leaving (h : part.IsPart whole mode original) (hpart : part.linkCount < 2 ^ 32)
    (hwhole : whole.linkCount < 2 ^ 32) (direction : Direction) (node : NodeId) :
    (part.leaving direction node).map original =
      (whole.leaving direction node).filter (whole.allows mode) := by
  have hirrefl : Std.Irrefl fun id id' : LinkId => id < id' :=
    ⟨fun _ hlt => Nat.lt_irrefl _ (Id.lt_iff_index_lt.mp hlt)⟩
  have hantisymm : Std.Antisymm fun id id' : LinkId => id < id' :=
    ⟨fun _ _ hlt hgt => absurd (Id.lt_iff_index_lt.mp hgt)
      (Nat.lt_asymm (Id.lt_iff_index_lt.mp hlt))⟩
  -- both lists ascend, and so it is enough that they have the same elements
  refine List.Pairwise.eq_of_mem_iff (r := fun id id' : LinkId => id < id') ?_
    ((leaving_pairwise hwhole direction node).filter _) fun id => ?_
  · refine List.pairwise_map.mpr ((leaving_pairwise hpart direction node).imp_of_mem ?_)
    intro id id' _ hid' hlt
    obtain ⟨link, hlink, -⟩ := (mem_leaving hpart).mp hid'
    exact h.increasing id id' hlt (Array.getElem?_eq_some_iff.mp hlink).1
  rw [List.mem_map, List.mem_filter, mem_leaving hwhole, h.onto]
  constructor
  · rintro ⟨id', hid', rfl⟩
    obtain ⟨link, hlink, hnear⟩ := (mem_leaving hpart).mp hid'
    have hcount := (Array.getElem?_eq_some_iff.mp hlink).1
    obtain ⟨link', hlink', horiginal⟩ := h.link id' hcount
    obtain rfl := Option.some.inj (hlink.symm.trans (link_eq_ok.mp hlink'))
    exact ⟨⟨link, link_eq_ok.mp horiginal, hnear⟩, id', hcount, rfl⟩
  · rintro ⟨⟨link, hlink, hnear⟩, id', hid', rfl⟩
    obtain ⟨link', hlink', horiginal⟩ := h.link id' hid'
    obtain rfl := Option.some.inj (hlink.symm.trans (link_eq_ok.mp horiginal))
    exact ⟨id', (mem_leaving hpart).mpr ⟨link, link_eq_ok.mp hlink', hnear⟩, rfl⟩

/-! ## Paths -/

/-- What a search follows on the part, it can follow on the whole over links of the mode. -/
theorem leads (h : part.IsPart whole mode original) {direction : Direction} {root node : NodeId}
    {ids : List LinkId} {nodes : List NodeId} (hleads : part.Leads direction root ids nodes node) :
    whole.Leads direction root (ids.map original) nodes node ∧
      ∀ id ∈ ids.map original, whole.allows mode id = true := by
  induction hleads with
  | root => exact ⟨.root, nofun⟩
  | @follow ids nodes id link _ hlink ih =>
    have hcount := (Array.getElem?_eq_some_iff.mp hlink).1
    obtain ⟨link', hlink', horiginal⟩ := h.link id hcount
    obtain rfl := Option.some.inj (hlink.symm.trans (link_eq_ok.mp hlink'))
    rw [List.map_append]
    refine ⟨ih.1.follow (link_eq_ok.mp horiginal), fun id' hid' => ?_⟩
    rcases List.mem_append.mp hid' with hid' | hid'
    · exact ih.2 id' hid'
    · obtain rfl := List.mem_singleton.mp hid'
      exact (h.onto _).mpr ⟨id, hcount, rfl⟩

/-- What a search follows on the whole over links of the mode, it can follow on the part. -/
theorem exists_leads (h : part.IsPart whole mode original) {direction : Direction}
    {root node : NodeId} {ids : List LinkId} {nodes : List NodeId}
    (hleads : whole.Leads direction root ids nodes node)
    (hallowed : ∀ id ∈ ids, whole.allows mode id = true) :
    ∃ ids', ids'.map original = ids ∧ part.Leads direction root ids' nodes node := by
  induction hleads with
  | root => exact ⟨[], rfl, .root⟩
  | @follow ids nodes id link _ hlink ih =>
    obtain ⟨ids', rfl, hleads'⟩ := ih fun id' hid' => hallowed id' (List.mem_append_left _ hid')
    obtain ⟨id', hid', rfl⟩ := (h.onto id).mp (hallowed id (by simp))
    obtain ⟨link', hlink', horiginal⟩ := h.link id' hid'
    obtain rfl := Option.some.inj (hlink.symm.trans (link_eq_ok.mp horiginal))
    exact ⟨ids' ++ [id'], List.map_append, hleads'.follow (link_eq_ok.mp hlink')⟩

end IsPart

/-! ## Cutting down twice -/

variable [Scalar α] {draft : NetworkDraft α}

theorem build_restricted (hbuild : draft.build = .ok network) (mode : Mode) :
    (network.restricted mode).build = .ok (network.restricted mode).layOut := by
  obtain ⟨hstray, horder, rfl⟩ := NetworkDraft.build_eq_ok.mp hbuild
  refine NetworkDraft.build_eq_ok.mpr ⟨?_, horder, rfl⟩
  rw [Array.findIdx?_eq_none_iff] at hstray ⊢
  exact fun link hlink => hstray link (Array.mem_filter.mp hlink).1

/-- Any network of a draft can be cut down. -/
theorem restrictTo_eq (hbuild : draft.build = .ok network) (mode : Mode) :
    network.restrictTo mode = .ok (network.restricted mode).layOut :=
  build_restricted hbuild mode

/-- Cutting down to one mode twice is the same as doing it once. -/
theorem restrictTo_idem (hbuild : draft.build = .ok network) (mode : Mode) :
    (network.restricted mode).layOut.restrictTo mode = .ok (network.restricted mode).layOut := by
  have hsame : (network.restricted mode).layOut.restricted mode = network.restricted mode := by
    simp [restricted, NetworkDraft.layOut]
  rw [restrictTo_eq (build_restricted hbuild mode), hsame]

/-- Two modes may be taken in either order. -/
theorem restrictTo_comm (hbuild : draft.build = .ok network) (mode other : Mode) :
    (network.restricted mode).layOut.restrictTo other =
      (network.restricted other).layOut.restrictTo mode := by
  have hsame : (network.restricted mode).layOut.restricted other =
      (network.restricted other).layOut.restricted mode := by
    simp [restricted, NetworkDraft.layOut, Bool.and_comm]
  rw [restrictTo_eq (build_restricted hbuild mode), restrictTo_eq (build_restricted hbuild other),
    hsame]

end Network

/-! ## Searches -/

/-- A function of the links of a network, for the links of a part. -/
def LinkFunction.along (f : LinkFunction α) (original : LinkId → LinkId) : LinkFunction α where
  value id time := f.value (original id) time
  timeInvariant := f.timeInvariant

namespace Network

variable [Scalar α] {network : Network α} {mode : Mode}

/-- On every link of the mode travel times are finite and not negative, and so are costs, which are
the same at every time. -/
structure SteadyOn (network : Network α) (mode : Mode) (travelTime cost : LinkFunction α)
    (linkCost : LinkId → α) : Prop where
  travelTime (id : LinkId) : network.allows mode id = true → ∀ time, ∃ value,
    travelTime.value id time = .ok value ∧ Scalar.isFinite value = true ∧ 0 ≤ value
  cost (id : LinkId) : network.allows mode id = true → ∀ time,
    cost.value id time = .ok (linkCost id)
  isFinite (id : LinkId) : network.allows mode id = true → Scalar.isFinite (linkCost id) = true
  nonnegative (id : LinkId) : network.allows mode id = true → 0 ≤ linkCost id

/-- A path over links of the mode, in the order in which a search follows it. -/
def LeadsBy (network : Network α) (mode : Mode) (direction : Direction) (root : NodeId)
    (ids : List LinkId) (nodes : List NodeId) (node : NodeId) : Prop :=
  network.Leads direction root ids nodes node ∧ ∀ id ∈ ids, network.allows mode id = true

/-- The link functions of the whole are as steady on the part. -/
theorem IsPart.steady {part whole : Network α} {original : LinkId → LinkId}
    {travelTime cost : LinkFunction α} {linkCost : LinkId → α}
    (h : part.IsPart whole mode original)
    (hsteady : whole.SteadyOn mode travelTime cost linkCost) :
    (RoadSearch.mk part (travelTime.along original) (cost.along original)).Steady
      (linkCost ∘ original) where
  travelTime id hid := hsteady.travelTime _ ((h.onto _).mpr ⟨id, hid, rfl⟩)
  cost id hid := hsteady.cost _ ((h.onto _).mpr ⟨id, hid, rfl⟩)
  isFinite id hid := hsteady.isFinite _ ((h.onto _).mpr ⟨id, hid, rfl⟩)
  nonnegative id hid := hsteady.nonnegative _ ((h.onto _).mpr ⟨id, hid, rfl⟩)

/-- The whole has a path of some cost over links of the mode when the part has a path of this cost,
and only then. -/
theorem IsPart.exists_path_iff {part whole : Network α} {original : LinkId → LinkId}
    (h : part.IsPart whole mode original) (linkCost : LinkId → α) {direction : Direction}
    {root node : NodeId} (P : α → Prop) :
    (∃ ids nodes, whole.LeadsBy mode direction root ids nodes node ∧
      P (RoadSearch.pathCost linkCost ids)) ↔
    ∃ ids nodes, part.Leads direction root ids nodes node ∧
      P (RoadSearch.pathCost (linkCost ∘ original) ids) := by
  have hcost (ids : List LinkId) : RoadSearch.pathCost linkCost (ids.map original) =
      RoadSearch.pathCost (linkCost ∘ original) ids := List.foldl_map
  constructor
  · rintro ⟨ids, nodes, ⟨hleads, hallowed⟩, hP⟩
    obtain ⟨ids', rfl, hleads'⟩ := h.exists_leads hleads hallowed
    exact ⟨ids', nodes, hleads', hcost ids' ▸ hP⟩
  · rintro ⟨ids, nodes, hleads, hP⟩
    exact ⟨ids.map original, nodes, h.leads hleads, (hcost ids).symm ▸ hP⟩

/-- Any network of a draft can be cut down to the links of a mode. The new ids go to the old ones by
an increasing map, which keeps links and nodes and the order of the links at every node. Doing it
twice changes nothing more, and two modes may be taken in either order. With link functions that are
carried along the map, a search settles a node exactly when a path over links of the mode reaches it
within the bound, at the least cost of these paths. -/
theorem restrictTo_keeps_graph [LawfulScalar α] {draft : NetworkDraft α}
    (hbuild : draft.build = .ok network) (hlinks : draft.links.size < 2 ^ 32 - 1) (mode : Mode) :
    ∃ part, network.restrictTo mode = .ok part ∧
      part.IsPart network mode (network.original mode) ∧
      (∀ (direction : Direction) (node : NodeId), network.contains node = true →
        ∃ ids ids', direction.links network node = .ok ids ∧ direction.links part node = .ok ids' ∧
          ids'.map (network.original mode) = ids.filter (network.allows mode)) ∧
      part.restrictTo mode = .ok part ∧
      (∀ other, ∃ part' both, network.restrictTo other = .ok part' ∧
        part.restrictTo other = .ok both ∧ part'.restrictTo mode = .ok both) ∧
      ∀ (travelTime cost : LinkFunction α) (linkCost : LinkId → α),
        network.SteadyOn mode travelTime cost linkCost →
        ∀ root, network.contains root = true → ∀ rootTime direction maxCost,
          Scalar.IsNumber maxCost →
          ∃ tree, RoadSearch.run ⟨part, travelTime.along (network.original mode),
              cost.along (network.original mode)⟩ root rootTime direction maxCost none =
                .ok tree ∧
            ∀ node : NodeId,
              ((tree.cost? node).isSome = true ↔ ∃ ids nodes,
                network.LeadsBy mode direction root ids nodes node ∧
                  Scalar.isFinite (RoadSearch.pathCost linkCost ids) = true ∧
                    RoadSearch.pathCost linkCost ids ≤ maxCost) ∧
              ∀ total, tree.cost? node = some total →
                (∃ ids nodes, network.LeadsBy mode direction root ids nodes node ∧
                  RoadSearch.pathCost linkCost ids = total ∧ Scalar.isFinite total = true ∧
                    total ≤ maxCost) ∧
                ∀ ids nodes, network.LeadsBy mode direction root ids nodes node →
                  total ≤ RoadSearch.pathCost linkCost ids := by
  obtain ⟨hdraft, hsound⟩ := NetworkDraft.sound_build hbuild
  have hcount : network.linkCount < 2 ^ 32 := NetworkDraft.linkCount_lt_of_build hbuild hlinks
  have hpartBuild := build_restricted hbuild mode
  have hsize : (network.restricted mode).links.size ≤ network.linkCount := Array.size_filter_le
  have hpartSound := (NetworkDraft.sound_build hpartBuild).2
  have hpart := isPart_layOut hcount mode
  have hpartCount : (network.restricted mode).layOut.linkCount < 2 ^ 32 := hsize.trans_lt hcount
  refine ⟨_, restrictTo_eq hbuild mode, hpart, fun direction node hnode => ?_,
    restrictTo_idem hbuild mode, fun other => ?_, fun travelTime cost linkCost hsteady root hroot
      rootTime direction maxCost hmax => ?_⟩
  · exact ⟨_, _, hsound.links direction node hnode, hpartSound.links direction node hnode,
      hpart.map_leaving hpartCount hcount direction node⟩
  · have hboth := restrictTo_eq hpartBuild other
    exact ⟨_, _, restrictTo_eq hbuild other, hboth,
      (restrictTo_comm hbuild mode other).symm.trans hboth⟩
  · rw [NetworkDraft.linkCount_of_build hbuild] at hsize
    obtain ⟨tree, htree, hcosts⟩ := RoadSearch.run_least_cost
      ⟨_, travelTime.along (network.original mode), cost.along (network.original mode)⟩ hpartBuild
      (hsize.trans_lt hlinks) (hpart.steady hsteady) hroot rootTime direction hmax
    refine ⟨tree, htree, fun node => ?_⟩
    obtain ⟨hsome, hleast⟩ := hcosts node
    refine ⟨hsome.trans (hpart.exists_path_iff linkCost
      fun total => Scalar.isFinite total = true ∧ total ≤ maxCost).symm, fun total htotal => ?_⟩
    obtain ⟨hattained, hbelow⟩ := hleast total htotal
    refine ⟨(hpart.exists_path_iff linkCost fun cost => cost = total ∧
      Scalar.isFinite total = true ∧ total ≤ maxCost).mpr hattained, fun ids nodes hleads => ?_⟩
    obtain ⟨ids', nodes', hleads', hcost⟩ := (hpart.exists_path_iff linkCost
      fun cost => cost = RoadSearch.pathCost linkCost ids).mp ⟨ids, nodes, hleads, rfl⟩
    exact hcost ▸ hbelow ids' nodes' hleads'

end Network

/-! ## A footpath -/

/-- Three crossings with streets around a block, and a footpath across it. -/
def footpath : NetworkDraft Float :=
  let draft := (NetworkDraft.empty.addNode ⟨0, 0⟩).2
  let draft := (draft.addNode ⟨500, 0⟩).2
  let draft := (draft.addNode ⟨500, 500⟩).2
  let draft := (draft.addLink ⟨0⟩ ⟨2⟩ ⟨700, 10, 100, .single .walk⟩).2
  let draft := (draft.addLink ⟨0⟩ ⟨1⟩ (.car 500 10)).2
  (draft.addLink ⟨1⟩ ⟨2⟩ (.car 500 10)).2

/-- The seconds on each street. -/
def streetSeconds (_ : LinkId) : Float := 50

theorem steadyOn_footpath : footpath.layOut.SteadyOn .car (.freeFlow footpath.layOut)
    (.timeCost (.freeFlow footpath.layOut)) streetSeconds := by
  have hvalue : ∀ id, footpath.layOut.allows .car id = true → ∀ time,
      (LinkFunction.freeFlow footpath.layOut).value id time = .ok (streetSeconds id) := by
    intro id hid time
    obtain ⟨link, hlink, hmode⟩ := Network.allows_iff.mp hid
    have hcount : id.index < 3 := (Array.getElem?_eq_some_iff.mp hlink).1
    obtain h | h | h : id.index = 0 ∨ id.index = 1 ∨ id.index = 2 := by omega
    · obtain rfl : id = ⟨0⟩ := Id.index_injective h
      cases hlink
      cases hmode
    · obtain rfl : id = ⟨1⟩ := Id.index_injective h
      rfl
    · obtain rfl : id = ⟨2⟩ := Id.index_injective h
      rfl
  have hseconds : Scalar.isFinite (50 : Float) = true ∧ (0 : Float) ≤ 50 := by decide
  exact ⟨fun id hid time => ⟨_, hvalue id hid time, hseconds⟩, hvalue, fun _ _ => hseconds.1,
    fun _ _ => hseconds.2⟩

/-- Cars go around the block. -/
theorem restrictTo_keeps_graph_footpath : footpath.build = .ok footpath.layOut ∧
    footpath.links.size < 2 ^ 32 - 1 ∧ footpath.layOut.contains ⟨0⟩ = true ∧
      footpath.layOut.SteadyOn .car (.freeFlow footpath.layOut)
        (.timeCost (.freeFlow footpath.layOut)) streetSeconds ∧
      Scalar.IsNumber (150 : Float) ∧
      ∃ part tree, footpath.layOut.restrictTo .car = .ok part ∧ part.linkCount = 2 ∧
        RoadSearch.run ⟨part,
          (LinkFunction.freeFlow footpath.layOut).along (footpath.layOut.original .car),
          (LinkFunction.timeCost (.freeFlow footpath.layOut)).along
            (footpath.layOut.original .car)⟩ ⟨0⟩ 28800 .forward 150 none = .ok tree ∧
        ∃ total, tree.cost? ⟨2⟩ = some total ∧
          ∀ ids nodes, footpath.layOut.LeadsBy .car .forward ⟨0⟩ ids nodes ⟨2⟩ →
            total ≤ RoadSearch.pathCost streetSeconds ids := by
  have hbuild : footpath.build = .ok footpath.layOut :=
    NetworkDraft.build_eq_ok.mpr ⟨by decide +kernel, rfl, rfl⟩
  obtain ⟨part, hpart, -, -, -, -, hsearch⟩ :=
    Network.restrictTo_keeps_graph hbuild (by decide) .car
  obtain ⟨tree, htree, hcosts⟩ := hsearch _ _ _ steadyOn_footpath ⟨0⟩ (by decide) 28800 .forward
    150 rfl
  obtain ⟨hsome, hleast⟩ := hcosts ⟨2⟩
  have hfirst : footpath.layOut.links[(⟨1⟩ : LinkId).index]? =
      some { LinkTraits.car 500 10 with source := ⟨0⟩, target := ⟨1⟩ } := rfl
  have hsecond : footpath.layOut.links[(⟨2⟩ : LinkId).index]? =
      some { LinkTraits.car 500 10 with source := ⟨1⟩, target := ⟨2⟩ } := rfl
  have hhalf : footpath.layOut.Leads .forward ⟨0⟩ ([] ++ [⟨1⟩]) ([⟨0⟩] ++ [⟨1⟩]) ⟨1⟩ :=
    .follow .root hfirst
  have haround : footpath.layOut.LeadsBy .car .forward ⟨0⟩ ([⟨1⟩] ++ [⟨2⟩])
      ([⟨0⟩, ⟨1⟩] ++ [⟨2⟩]) ⟨2⟩ := ⟨.follow hhalf hsecond, by decide⟩
  obtain ⟨total, htotal⟩ := Option.isSome_iff_exists.mp
    (hsome.mpr ⟨_, _, haround, by decide +kernel, by decide +kernel⟩)
  refine ⟨hbuild, by decide, by decide, steadyOn_footpath, rfl, part, tree, hpart, ?_, htree, total,
    htotal, (hleast total htotal).2⟩
  rw [Network.restrictTo_eq hbuild] at hpart
  cases hpart
  decide +kernel

end ZoneSkims
