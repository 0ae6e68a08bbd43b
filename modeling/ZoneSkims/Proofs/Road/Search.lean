import ZoneSkims.Proofs.Road.Network

/-!
# Steps of a search

What one step of a search reads and changes. Following a link offers a label to the far end of the
link, and the offer is taken when it is cheaper than what is known there. The next entry of the
frontier is skipped, ends the search or has its node settled.

* `RoadSearch.Offers`: the label that a link offers.
* `RoadSearch.ok_relax`, `RoadSearch.returns_relax`: following one link.
* `RoadSearch.settle_eq`: settling a node.
* `RoadSearch.explore_skip`, `RoadSearch.explore_settle`: taking one entry.
* `SearchState.Consistent`: the labels and the list of settled nodes agree.
* `RoadSearch.run_eq_ok`: a search that succeeds ends in a state.
-/

namespace ZoneSkims

variable {α : Type}

/-! ## States -/

namespace SearchState

/-- The label of a node that was reached. -/
def labelAt (state : SearchState α) (node : NodeId) : Option (Label α) :=
  state.labels[node.index]?.join

/-- The state after a node was settled with its label. -/
def close (state : SearchState α) (node : NodeId) (label : Label α) : SearchState α :=
  { state with
    labels := state.labels.setIfInBounds node.index (some { label with settled := true })
    settled := node :: state.settled }

/-- The state after a node took an offered label. -/
def lower [Scalar α] (state : SearchState α) (node : NodeId) (label : Label α) : SearchState α :=
  { state with
    labels := state.labels.setIfInBounds node.index (some label)
    frontier := state.frontier.push ⟨label.cost, node⟩ }

/-- No settled label is known of a node. -/
def Open (state : SearchState α) (node : NodeId) : Prop :=
  ∀ known, state.labelAt node = some known → known.settled = false

/-- The labels that a search leaves when it ends in a state. -/
def tree (root : NodeId) (direction : Direction) (rootTime : α) (state : SearchState α) :
    PathTree α :=
  { root, direction, rootTime, labels := state.labels, settled := state.settled }

variable {state : SearchState α} {node other : NodeId} {label : Label α}

theorem label?_tree {root : NodeId} {direction : Direction} {rootTime : α} :
    (tree root direction rootTime state).label? node = some label ↔
      state.labelAt node = some label ∧ label.settled = true := by
  unfold PathTree.label?
  exact Option.filter_eq_some_iff

theorem cost?_tree {root : NodeId} {direction : Direction} {rootTime cost : α} :
    (tree root direction rootTime state).cost? node = some cost ↔
      ∃ label, state.labelAt node = some label ∧ label.settled = true ∧ label.cost = cost := by
  refine Option.map_eq_some_iff.trans (exists_congr fun label => ?_)
  rw [label?_tree, and_assoc]

theorem lt_of_labelAt (h : state.labelAt node = some label) : node.index < state.labels.size := by
  unfold labelAt at h
  cases hknown : state.labels[node.index]? with
  | none => rw [hknown] at h; cases h
  | some known => exact (Array.getElem?_eq_some_iff.mp hknown).1

theorem labelAt_close_self (h : node.index < state.labels.size) :
    (state.close node label).labelAt node = some { label with settled := true } := by
  rw [labelAt, close, Array.getElem?_setIfInBounds_self_of_lt h]
  rfl

theorem labelAt_close_of_ne (h : other ≠ node) :
    (state.close node label).labelAt other = state.labelAt other := by
  rw [labelAt, close,
    Array.getElem?_setIfInBounds_ne fun hindex => h (Id.index_injective hindex).symm]
  rfl

theorem labelAt_lower_self [Scalar α] (h : node.index < state.labels.size) :
    (state.lower node label).labelAt node = some label := by
  rw [labelAt, lower, Array.getElem?_setIfInBounds_self_of_lt h]
  rfl

theorem labelAt_lower_of_ne [Scalar α] (h : other ≠ node) :
    (state.lower node label).labelAt other = state.labelAt other := by
  rw [labelAt, lower,
    Array.getElem?_setIfInBounds_ne fun hindex => h (Id.index_injective hindex).symm]
  rfl

/-- Settling a node changes no label but its own, of which it keeps the cost. -/
theorem labelAt_close_cases {known : Label α} (h : node.index < state.labels.size)
    (hknown : (state.close node label).labelAt other = some known) :
    other = node ∧ known = { label with settled := true } ∨
      other ≠ node ∧ state.labelAt other = some known := by
  by_cases hother : other = node
  · subst hother
    rw [labelAt_close_self h] at hknown
    exact Or.inl ⟨rfl, (Option.some.inj hknown).symm⟩
  · rw [labelAt_close_of_ne hother] at hknown
    exact Or.inr ⟨hother, hknown⟩

/-- A taken offer changes no label but the one of its node. -/
theorem labelAt_lower_cases [Scalar α] {known : Label α} (h : node.index < state.labels.size)
    (hknown : (state.lower node label).labelAt other = some known) :
    other = node ∧ known = label ∨ other ≠ node ∧ state.labelAt other = some known := by
  by_cases hother : other = node
  · subst hother
    rw [labelAt_lower_self h] at hknown
    exact Or.inl ⟨rfl, (Option.some.inj hknown).symm⟩
  · rw [labelAt_lower_of_ne hother] at hknown
    exact Or.inr ⟨hother, hknown⟩

/-- A label that is settled after an offer was taken was settled before. -/
theorem labelAt_of_lower [Scalar α] {known : Label α} (h : node.index < state.labels.size)
    (hlabel : label.settled = false)
    (hknown : (state.lower node label).labelAt other = some known)
    (hsettled : known.settled = true) : state.labelAt other = some known := by
  obtain ⟨-, rfl⟩ | ⟨-, hknown⟩ := labelAt_lower_cases h hknown
  · rw [hlabel] at hsettled
    cases hsettled
  · exact hknown

theorem exists_labelAt_close {known : Label α} (hlabel : state.labelAt node = some label)
    (hknown : state.labelAt other = some known) :
    ∃ known', (state.close node label).labelAt other = some known' ∧ known'.cost = known.cost := by
  by_cases hother : other = node
  · subst hother
    obtain rfl : label = known := Option.some.inj (hlabel.symm.trans hknown)
    exact ⟨_, labelAt_close_self (lt_of_labelAt hlabel), rfl⟩
  · exact ⟨known, (labelAt_close_of_ne hother).trans hknown, rfl⟩

/-- The labels and the list of settled nodes agree. -/
structure Consistent (network : Network α) (state : SearchState α) : Prop where
  size : state.labels.size = network.nodeCount
  nodup : state.settled.Nodup
  mem_settled : ∀ node, node ∈ state.settled ↔
    ∃ label, state.labelAt node = some label ∧ label.settled = true

namespace Consistent

variable {network : Network α}

theorem not_mem_settled (h : state.Consistent network) (hopen : state.Open node) :
    node ∉ state.settled := by
  intro hmem
  obtain ⟨known, hknown, hsettled⟩ := (h.mem_settled node).mp hmem
  rw [hopen known hknown] at hsettled
  cases hsettled

theorem withFrontier (h : state.Consistent network) (frontier : Frontier α) :
    ({ state with frontier } : SearchState α).Consistent network :=
  ⟨h.size, h.nodup, h.mem_settled⟩

theorem lower [Scalar α] (h : state.Consistent network) (hnode : node.index < state.labels.size)
    (hopen : state.Open node) (hlabel : label.settled = false) :
    (state.lower node label).Consistent network := by
  refine ⟨?_, h.nodup, fun other => ?_⟩
  · rw [SearchState.lower, Array.size_setIfInBounds]
    exact h.size
  · by_cases hother : other = node
    · subst hother
      rw [labelAt_lower_self hnode]
      refine iff_of_false (h.not_mem_settled hopen) ?_
      rintro ⟨_, heq, hsettled⟩
      cases heq
      rw [hlabel] at hsettled
      cases hsettled
    · rw [labelAt_lower_of_ne hother]
      exact h.mem_settled other

theorem close (h : state.Consistent network) (hlabel : state.labelAt node = some label)
    (hopen : state.Open node) : (state.close node label).Consistent network := by
  refine ⟨?_, List.nodup_cons.mpr ⟨h.not_mem_settled hopen, h.nodup⟩, fun other => ?_⟩
  · rw [SearchState.close, Array.size_setIfInBounds]
    exact h.size
  · by_cases hother : other = node
    · subst hother
      rw [labelAt_close_self (lt_of_labelAt hlabel)]
      exact iff_of_true List.mem_cons_self ⟨_, rfl, rfl⟩
    · rw [labelAt_close_of_ne hother]
      exact (List.mem_cons.trans (or_iff_right hother)).trans (h.mem_settled other)

end Consistent

end SearchState

/-! ## Following a link -/

variable [Scalar α]

/-- What is known at the far end of a link that was followed from a node with the label `near`. -/
def Label.along (near : Label α) (direction : Direction) (id : LinkId) (link : Link α)
    (travelTime linkCost : α) : Label α :=
  { cost := near.cost + linkCost
    time := direction.after near.time travelTime
    distance := near.distance + link.length
    settled := false
    pred := some id }

namespace RoadSearch

variable {search : RoadSearch α} {direction : Direction} {maxCost : α} {target : Option NodeId}
  {state : SearchState α} {near label : Label α} {id : LinkId} {link : Link α}

theorem ok_checkValue (kind : LinkQuantity) (id : LinkId) (time value : α) :
    Ok (checkValue kind id time value) fun _ => Scalar.isFinite value = true ∧ ¬ value < 0 := by
  unfold checkValue
  split
  case isTrue => exact Ok.error _
  case isFalse hfinite =>
    split
    case isTrue => exact Ok.error _
    case isFalse hnegative => exact Ok.pure ⟨by simpa using hfinite, hnegative⟩

theorem returns_checkValue {kind : LinkQuantity} {time value : α}
    (hfinite : Scalar.isFinite value = true) (hnegative : ¬ value < 0) :
    checkValue kind id time value = .ok () := by
  unfold checkValue
  rw [hfinite, if_neg hnegative]
  rfl

/-- The values of a link are those of both link functions, finite and not negative. -/
theorem ok_linkValues (search : RoadSearch α) (id : LinkId) (time : α) :
    Ok (search.linkValues id time) fun (travelTime, linkCost) =>
      search.travelTime.value id time = .ok travelTime ∧
      search.cost.value id time = .ok linkCost := by
  unfold linkValues
  refine Ok.bind (Ok.lift (Ok.self _)) fun travelTime htime => ?_
  refine Ok.bind (ok_checkValue _ _ _ _) fun _ _ => ?_
  refine Ok.bind (Ok.lift (Ok.self _)) fun linkCost hcost => ?_
  exact Ok.bind (ok_checkValue _ _ _ _) fun _ _ => Ok.pure ⟨htime, hcost⟩

/-- The values of a link are finite and not negative. -/
theorem checked_linkValues (search : RoadSearch α) (id : LinkId) (time : α) :
    Ok (search.linkValues id time) fun (travelTime, linkCost) =>
      (Scalar.isFinite travelTime = true ∧ ¬ travelTime < 0) ∧
        Scalar.isFinite linkCost = true ∧ ¬ linkCost < 0 := by
  unfold linkValues
  refine Ok.bind (Ok.lift (Ok.trivial _)) fun travelTime _ => ?_
  refine Ok.bind (ok_checkValue _ _ _ _) fun _ htime => ?_
  refine Ok.bind (Ok.lift (Ok.trivial _)) fun linkCost _ => ?_
  exact Ok.bind (ok_checkValue _ _ _ _) fun _ hcost => Ok.pure ⟨htime, hcost⟩

theorem linkValues_eq {time travelTime linkCost : α}
    (htime : search.travelTime.value id time = .ok travelTime)
    (hcost : search.cost.value id time = .ok linkCost)
    (htimeFinite : Scalar.isFinite travelTime = true) (htimeNegative : ¬ travelTime < 0)
    (hcostFinite : Scalar.isFinite linkCost = true) (hcostNegative : ¬ linkCost < 0) :
    search.linkValues id time = .ok (travelTime, linkCost) := by
  rw [linkValues, htime, hcost]
  show (do
    checkValue .travelTime id time travelTime
    checkValue .cost id time linkCost
    return (travelTime, linkCost)) = _
  rw [returns_checkValue htimeFinite htimeNegative, returns_checkValue hcostFinite hcostNegative]
  rfl

/-- The link offers the label to its far end. -/
structure Offers (search : RoadSearch α) (direction : Direction) (near : Label α) (id : LinkId)
    (link : Link α) (label : Label α) : Prop where
  found : search.network.links[id.index]? = some link
  values : ∃ travelTime linkCost, search.linkValues id near.time = .ok (travelTime, linkCost) ∧
    label = near.along direction id link travelTime linkCost

theorem Offers.settled (h : search.Offers direction near id link label) :
    search.Offers direction { near with settled := true } id link label :=
  ⟨h.found, h.values⟩

theorem Offers.exists_cost (h : search.Offers direction near id link label) :
    ∃ linkCost, Scalar.isFinite linkCost = true ∧ ¬ linkCost < 0 ∧
      label.cost = near.cost + linkCost := by
  obtain ⟨-, travelTime, linkCost, hvalues, rfl⟩ := h
  obtain ⟨-, hfinite, hnegative⟩ := checked_linkValues search id near.time _ hvalues
  exact ⟨linkCost, hfinite, hnegative, rfl⟩

theorem Offers.exists_time (h : search.Offers direction near id link label) :
    ∃ travelTime, Scalar.isFinite travelTime = true ∧ ¬ travelTime < 0 ∧
      label.time = direction.after near.time travelTime := by
  obtain ⟨-, travelTime, linkCost, hvalues, rfl⟩ := h
  obtain ⟨⟨hfinite, hnegative⟩, -⟩ := checked_linkValues search id near.time _ hvalues
  exact ⟨travelTime, hfinite, hnegative, rfl⟩

theorem Offers.unsettled (h : search.Offers direction near id link label) :
    label.settled = false := by
  obtain ⟨-, travelTime, linkCost, -, rfl⟩ := h
  rfl

theorem Offers.unique {other : Label α} (h : search.Offers direction near id link label)
    (h' : search.Offers direction near id link other) : label = other := by
  obtain ⟨-, travelTime, linkCost, hvalues, rfl⟩ := h
  obtain ⟨-, travelTime', linkCost', hvalues', rfl⟩ := h'
  cases hvalues.symm.trans hvalues'
  rfl

/-- The state after a link was followed: the offer was refused or taken. -/
inductive Relaxed (search : RoadSearch α) (direction : Direction) (near : Label α)
    (state : SearchState α) (id : LinkId) : SearchState α → Prop
  | refused {link : Link α} {label : Label α} : search.Offers direction near id link label →
    (direction.farEnd link).index < state.labels.size →
    ¬ label.cost < costOf (state.labelAt (direction.farEnd link)) →
      Relaxed search direction near state id state
  | taken {link : Link α} {label : Label α} : search.Offers direction near id link label →
    (direction.farEnd link).index < state.labels.size →
    state.Open (direction.farEnd link) →
    label.cost < costOf (state.labelAt (direction.farEnd link)) →
      Relaxed search direction near state id (state.lower (direction.farEnd link) label)

theorem ok_relax (search : RoadSearch α) (direction : Direction) (near : Label α)
    (state : SearchState α) (id : LinkId) :
    Ok (search.relax direction near state id) (Relaxed search direction near state id) := by
  unfold relax
  refine Ok.bind (Ok.lift (Ok.fetch _ _)) fun link hlink => ?_
  refine Ok.bind (Ok.self _) fun (travelTime, linkCost) hvalues => ?_
  refine Ok.bind (Ok.lift (Ok.fetch _ _)) fun known hknown => ?_
  have hoffer : search.Offers direction near id link
      (near.along direction id link travelTime linkCost) := ⟨hlink, _, _, hvalues, rfl⟩
  have hfar : (direction.farEnd link).index < state.labels.size :=
    (Array.getElem?_eq_some_iff.mp hknown).1
  have hlabel : state.labelAt (direction.farEnd link) = known := by
    rw [SearchState.labelAt, hknown]
    rfl
  split
  case isTrue =>
    split
    case isTrue => exact Ok.error _
    case isFalse hcost => exact Ok.pure (.refused hoffer hfar (by rwa [hlabel]))
  case isFalse hsettled =>
    split
    case isTrue hcost =>
      refine Ok.pure (.taken hoffer hfar (fun label heq => ?_) (by rwa [hlabel]))
      rw [hlabel.symm.trans heq] at hsettled
      simpa using hsettled
    case isFalse hcost => exact Ok.pure (.refused hoffer hfar (by rwa [hlabel]))

/-- Following a link goes well when the offer would not lower a settled label. -/
theorem returns_relax (hoffer : search.Offers direction near id link label)
    (hfar : (direction.farEnd link).index < state.labels.size)
    (hlate : ∀ known, state.labelAt (direction.farEnd link) = some known → known.settled = true →
      ¬ label.cost < known.cost) :
    Returns (search.relax direction near state id) (Relaxed search direction near state id) := by
  refine Returns.of_ok (Q := fun _ => True) ?_ (ok_relax search direction near state id)
  obtain ⟨hlink, travelTime, linkCost, hvalues, rfl⟩ := hoffer
  unfold relax
  refine Returns.bind
    (Returns.lift (Returns.of_eq (P := (· = link)) (fetch_eq_ok.mpr hlink) rfl)) ?_
  rintro link rfl
  refine Returns.bind (Returns.of_eq (P := (· = (travelTime, linkCost))) hvalues rfl) ?_
  rintro _ rfl
  refine Returns.bind (Returns.lift (Returns.fetch hfar)) fun known hknown => ?_
  have hlabel : state.labelAt (direction.farEnd link) = known := by
    rw [SearchState.labelAt, hknown]
    rfl
  split
  case isTrue hsettled =>
    obtain ⟨label, rfl, hsettled⟩ := (Option.any_eq_true _ _).mp hsettled
    split
    case isTrue hcost => exact absurd hcost (hlate label hlabel ‹_›)
    case isFalse => exact Returns.pure trivial
  case isFalse =>
    split
    · exact Returns.pure trivial
    · exact Returns.pure trivial

/-! ## Taking an entry -/

/-- Settling a node follows its links, unless it is the target. -/
theorem settle_eq (hsound : search.network.Sound) {node : NodeId}
    (hnode : search.network.contains node = true) :
    search.settle direction target state node label =
      if target = some node then .ok (state.close node label)
      else (search.network.leaving direction node).foldlM (search.relax direction label)
        (state.close node label) := by
  unfold settle
  split
  · rfl
  · rw [hsound.links direction node hnode]
    rfl

/-- The entry is one of a node that has meanwhile been settled or reached at less cost. -/
def Stale (state : SearchState α) (entry : Frontier.Entry α) : Prop :=
  ∀ label, state.labelAt entry.node = some label →
    label.settled = true ∨ label.cost < entry.cost

/-- The entry is the one of its node's label, which is not settled. -/
structure Live (state : SearchState α) (entry : Frontier.Entry α) (label : Label α) : Prop where
  known : state.labelAt entry.node = some label
  unsettled : label.settled = false
  not_cheaper : ¬ label.cost < entry.cost

variable {entry : Frontier.Entry α} {frontier : Frontier α} {entries : Nat}

theorem Live.isOpen (h : Live state entry label) : state.Open entry.node := by
  intro known hknown
  obtain rfl : label = known := Option.some.inj (h.known.symm.trans hknown)
  exact h.unsettled

theorem stale_or_live (state : SearchState α) (entry : Frontier.Entry α) :
    Stale state entry ∨ ∃ label, Live state entry label := by
  cases hlabel : state.labelAt entry.node with
  | none => exact Or.inl fun label h => by rw [hlabel] at h; cases h
  | some label =>
    by_cases h : label.settled = true ∨ label.cost < entry.cost
    · refine Or.inl fun known hknown => ?_
      rw [hlabel] at hknown
      cases hknown
      exact h
    · rw [not_or, Bool.not_eq_true] at h
      exact Or.inr ⟨label, hlabel, h.1, h.2⟩

theorem explore_done (hpop : state.frontier.pop? = none) :
    search.explore direction maxCost target (entries + 1) state = .ok state := by
  rw [explore, hpop]

theorem explore_skip (hpop : state.frontier.pop? = some (entry, frontier))
    (hstale : Stale state entry) :
    search.explore direction maxCost target (entries + 1) state =
      search.explore direction maxCost target entries { state with frontier } := by
  unfold Stale SearchState.labelAt at hstale
  simp only [explore, hpop]
  cases hlabel : state.labels[entry.node.index]?.join with
  | none => rfl
  | some label => exact if_pos (hstale label hlabel)

theorem explore_stop (hpop : state.frontier.pop? = some (entry, frontier))
    (hlive : Live state entry label) (hbound : maxCost < entry.cost) :
    search.explore direction maxCost target (entries + 1) state = .ok { state with frontier } := by
  have hknown : state.labels[entry.node.index]?.join = some label := hlive.known
  simp only [explore, hpop, hknown]
  rw [if_neg (by simp [hlive.unsettled, hlive.not_cheaper]), if_pos hbound]

theorem explore_settle (hpop : state.frontier.pop? = some (entry, frontier))
    (hlive : Live state entry label) (hbound : ¬ maxCost < entry.cost) :
    search.explore direction maxCost target (entries + 1) state = (do
      let state ← search.settle direction target { state with frontier } entry.node label
      if target = some entry.node then return state
      else search.explore direction maxCost target entries state) := by
  have hknown : state.labels[entry.node.index]?.join = some label := hlive.known
  simp only [explore, hpop, hknown]
  rw [if_neg (by simp [hlive.unsettled, hlive.not_cheaper]), if_neg hbound]

/-! ## The start -/

/-- The label of the root. -/
def rootLabel (rootTime : α) : Label α :=
  { cost := 0, time := rootTime, distance := 0, settled := false, pred := none }

/-- The state in which a search starts. -/
def start (search : RoadSearch α) (root : NodeId) (rootTime : α) : SearchState α where
  labels := (Array.replicate search.network.nodeCount none).setIfInBounds root.index
    (some (rootLabel rootTime))
  frontier := Frontier.empty.push ⟨0, root⟩
  settled := []

variable {root node : NodeId} {rootTime : α}

theorem labelAt_start (hroot : search.network.contains root = true) :
    (search.start root rootTime).labelAt node = some label ↔
      node = root ∧ label = rootLabel rootTime := by
  have hlt : root.index < search.network.nodeCount := of_decide_eq_true hroot
  unfold SearchState.labelAt start
  rw [Array.getElem?_setIfInBounds]
  by_cases h : root.index = node.index
  · rw [if_pos h, if_pos (by rwa [Array.size_replicate])]
    obtain rfl := Id.index_injective h
    exact ⟨fun heq => ⟨rfl, (Option.some.inj heq).symm⟩, fun ⟨_, heq⟩ => by rw [heq]; rfl⟩
  · rw [if_neg h, Array.getElem?_replicate]
    refine iff_of_false ?_ ?_
    · split <;> exact nofun
    · rintro ⟨rfl, -⟩
      exact h rfl

theorem consistent_start (hroot : search.network.contains root = true) :
    (search.start root rootTime).Consistent search.network := by
  refine ⟨?_, List.nodup_nil, fun node => iff_of_false List.not_mem_nil ?_⟩
  · rw [start, Array.size_setIfInBounds, Array.size_replicate]
  · rintro ⟨label, hlabel, hsettled⟩
    obtain ⟨-, rfl⟩ := (labelAt_start hroot).mp hlabel
    cases hsettled

theorem run_eq (hroot : search.network.contains root = true) :
    search.run root rootTime direction maxCost target =
      SearchState.tree root direction rootTime <$> search.explore direction maxCost target
        (search.network.linkCount + 1) (search.start root rootTime) := by
  rw [run, if_pos hroot]
  rfl

theorem contains_of_run {tree : PathTree α}
    (h : search.run root rootTime direction maxCost target = .ok tree) :
    search.network.contains root = true := by
  unfold run at h
  split at h
  case isTrue hroot => exact hroot
  case isFalse => cases h

/-- A search that succeeds ends in a state, of which the tree is made. -/
theorem run_eq_ok {tree : PathTree α} :
    search.run root rootTime direction maxCost target = .ok tree ↔
      search.network.contains root = true ∧ ∃ final,
        search.explore direction maxCost target (search.network.linkCount + 1)
          (search.start root rootTime) = .ok final ∧
        final.tree root direction rootTime = tree := by
  constructor
  · intro h
    have hroot := contains_of_run h
    rw [run_eq hroot, map_eq_pure_bind] at h
    obtain ⟨final, hfinal, htree⟩ := bind_eq_ok.mp h
    exact ⟨hroot, final, hfinal, Except.ok.inj htree⟩
  · rintro ⟨hroot, final, hfinal, rfl⟩
    rw [run_eq hroot, hfinal]
    rfl

theorem rootTime_of_run {tree : PathTree α}
    (h : search.run root rootTime direction maxCost target = .ok tree) :
    tree.rootTime = rootTime := by
  obtain ⟨-, final, -, rfl⟩ := run_eq_ok.mp h
  rfl

end RoadSearch

end ZoneSkims
