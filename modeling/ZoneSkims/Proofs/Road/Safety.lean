import ZoneSkims.Proofs.Breach
import ZoneSkims.Proofs.Distance
import ZoneSkims.Proofs.Road.EarlyStop

/-!
# Searches end in results or faults

A search over a built network reads no position outside its arrays, whatever the link functions say
and whatever the lengths are: it ends in a result or a fault. What can go wrong later is prepared
here. Distances are sums of lengths, which nothing checks, and the nearest of several nodes is not
known when a position is undefined.

* `RoadSearch.Total`: the link functions have a value on every link.
* `RoadSearch.unbroken_run`: searches end in a result or a fault.
* `RoadSearch.measured_of_run`: when lengths are measures, so are distances.
* `Network.nearestNode?_spec`: the nearest node, and when it is known.
-/

namespace ZoneSkims

variable {α : Type} [Scalar α]

/-! ## Link functions -/

/-- The link functions have a value on every link, at every time of day. -/
structure RoadSearch.Total (search : RoadSearch α) : Prop where
  travelTime : ∀ id : LinkId, id.index < search.network.linkCount →
    ∀ time, ∃ value, search.travelTime.value id time = .ok value
  cost : ∀ id : LinkId, id.index < search.network.linkCount →
    ∀ time, ∃ value, search.cost.value id time = .ok value

omit [Scalar α] in
theorem Network.index_lt_of_mem_leaving {network : Network α} {direction : Direction}
    {node : NodeId} {id : LinkId} (h : id ∈ network.leaving direction node) :
    id.index < network.linkCount := by
  have hlt := Adjacency.index_lt_of_mem_endsAt h
  rwa [List.length_map, Array.length_toList] at hlt

namespace RoadSearch

variable {search : RoadSearch α} {direction : Direction} {maxCost rootTime : α} {root : NodeId}
  {target : Option NodeId} {state : SearchState α} {node : NodeId} {near label : Label α}
  {id : LinkId}

/-! ## Steps -/

theorem unbroken_checkValue (kind : LinkQuantity) (id : LinkId) (time value : α) :
    Unbroken (checkValue kind id time value) := by
  unfold checkValue
  split
  · exact Breaks.fail _
  · split
    · exact Breaks.fail _
    · exact Breaks.pure ()

theorem unbroken_linkValues (htotal : search.Total) (hid : id.index < search.network.linkCount)
    (time : α) : Unbroken (search.linkValues id time) := by
  unfold linkValues
  refine (Breaks.lift_of_ok (htotal.travelTime id hid time)).bind fun travelTime _ => ?_
  refine (unbroken_checkValue _ _ _ _).bind fun _ _ => ?_
  refine (Breaks.lift_of_ok (htotal.cost id hid time)).bind fun linkCost _ => ?_
  exact (unbroken_checkValue _ _ _ _).bind fun _ _ => Breaks.pure _

/-- There is room for the labels of all nodes. -/
def Roomy (search : RoadSearch α) (state : SearchState α) : Prop :=
  state.labels.size = search.network.nodeCount

theorem Relaxed.roomy {after : SearchState α} (h : search.Roomy state)
    (hrelaxed : Relaxed search direction near state id after) : search.Roomy after := by
  cases hrelaxed with
  | refused => exact h
  | taken => exact (Array.size_setIfInBounds ..).trans h

theorem unbroken_relax (htotal : search.Total) (hsound : search.network.Sound)
    (hid : id.index < search.network.linkCount) (h : search.Roomy state) :
    Unbroken (search.relax direction near state id) := by
  unfold relax
  refine (Breaks.lift_of_ok ⟨_, fetch_of_lt hid⟩).bind fun link hlink => ?_
  refine (unbroken_linkValues htotal hid near.time).bind fun (travelTime, linkCost) _ => ?_
  have hfar : (direction.farEnd link).index < state.labels.size := by
    rw [h]
    exact of_decide_eq_true (hsound.ends _ link (fetch_eq_ok.mp (lift_eq_ok.mp hlink)) direction)
  refine (Breaks.lift_of_ok ⟨_, fetch_of_lt hfar⟩).bind fun known _ => ?_
  split
  · split
    · exact Breaks.fail _
    · exact Breaks.pure state
  · split <;> exact Breaks.pure _

theorem unbroken_settle (htotal : search.Total) (hsound : search.network.Sound)
    (hnode : search.network.contains node = true) (h : search.Roomy state) :
    Unbroken (search.settle direction target state node label) := by
  have hclose : search.Roomy (state.close node label) := (Array.size_setIfInBounds ..).trans h
  rw [settle_eq hsound hnode]
  split
  · exact Breaks.pure _
  · exact Breaks.foldlM search.Roomy hclose
      (fun id _ state h after hafter => (ok_relax _ _ _ _ id after hafter).roomy h)
      fun id hid state h => unbroken_relax htotal hsound (Network.index_lt_of_mem_leaving hid) h

/-! ## Searches -/

theorem unbroken_explore (htotal : search.Total) (hsound : search.network.Sound)
    (entries : Nat) : ∀ state, search.Roomy state →
      Unbroken (search.explore direction maxCost target entries state) := by
  induction entries with
  | zero => exact fun state _ => Breaks.pure state
  | succ entries ih =>
    intro state h
    cases hpop : state.frontier.pop? with
    | none =>
      rw [explore_done hpop]
      exact Breaks.pure state
    | some popped =>
      obtain ⟨entry, rest⟩ := popped
      obtain hstale | ⟨label, hlive⟩ := stale_or_live state entry
      · rw [explore_skip hpop hstale]
        exact ih _ h
      · by_cases hbound : maxCost < entry.cost
        · rw [explore_stop hpop hlive hbound]
          exact Breaks.pure _
        rw [explore_settle hpop hlive hbound]
        have hnode : search.network.contains entry.node = true :=
          decide_eq_true (h ▸ SearchState.lt_of_labelAt hlive.known)
        have hrest : search.Roomy { state with frontier := rest } := h
        refine (unbroken_settle htotal hsound hnode hrest).bind fun after hafter => ?_
        have hroomy : search.Roomy after :=
          ok_settle ((Array.size_setIfInBounds ..).trans hrest)
            (fun id before after hbefore hrelaxed => hrelaxed.roomy hbefore) after hafter
        split
        · exact Breaks.pure after
        · exact ih after hroomy

/-- A search over a sound network ends in a result or a fault. -/
theorem unbroken_run (htotal : search.Total) (hsound : search.network.Sound) :
    Unbroken (search.run root rootTime direction maxCost target) := by
  by_cases hroot : search.network.contains root = true
  · rw [run_eq hroot, map_eq_pure_bind]
    refine (unbroken_explore htotal hsound _ _ (consistent_start hroot).size).bind fun final _ => ?_
    exact Breaks.pure _
  · rw [run, if_neg hroot]
    exact Breaks.fail _

/-! ## Distances -/

/-- The distance is a measure and the time of day a number. -/
structure Measured (label : Label α) : Prop where
  distance : Scalar.IsMeasure label.distance
  time : Scalar.IsNumber label.time

variable [LawfulScalar α] [LawfulSum α]

/-- Along links whose lengths are measures, so are all distances. -/
theorem measured_of_run {tree : PathTree α} (htime : Scalar.isFinite rootTime = true)
    (hlengths : ∀ link ∈ search.network.links, Scalar.IsMeasure link.length)
    (htree : search.run root rootTime .forward maxCost target = .ok tree)
    (hlabel : tree.label? node = some label) : Measured label := by
  refine run_labels ⟨Scalar.isMeasure_zero, Scalar.isNumber_of_isFinite htime⟩
    (fun label h => ⟨h.distance, h.time⟩) (fun near id link label h hoffer => ?_) htree hlabel
  obtain ⟨travelTime, hfinite, -, hafter⟩ := hoffer.exists_time
  obtain ⟨hlink, _, _, -, rfl⟩ := hoffer
  refine ⟨h.distance.add (hlengths link (Array.mem_of_getElem? hlink)), ?_⟩
  rw [hafter]
  exact Scalar.isNumber_add h.time hfinite

end RoadSearch

/-! ## The nearest node -/

variable [LawfulScalar α] [LawfulSum α] [LawfulMeasure α]

/-- Of the nodes at the least distance from a point the first one is found, and none only in a
network without nodes. The nearest node is unknown only when the position of a node is undefined. -/
theorem Network.nearestNode?_spec (network : Network α) {point : Coord α}
    (hpoint : point.isFinite = true) :
    network.nodes = #[] ∧ network.nearestNode? point = .ok none ∨
    (∃ i, network.nearestNode? point = .ok (some (Id.ofIndex i)) ∧
      Coord.IsNearest network.nodes.toList point i) ∨
    network.nearestNode? point = .error .noOrder ∧ ∃ p ∈ network.nodes, p.isUndefined = true := by
  rw [nearestNode?]
  rcases Coord.nearest?_spec network.nodes.toList hpoint with
    ⟨hnil, hnone⟩ | ⟨i, hfound, hnearest⟩ | ⟨herror, p, hp, hundefined⟩
  · exact .inl ⟨Array.toList_eq_nil_iff.mp hnil, by rw [hnone]; rfl⟩
  · exact .inr (.inl ⟨i, by rw [hfound]; rfl, hnearest⟩)
  · exact .inr (.inr ⟨by rw [herror]; rfl, p, Array.mem_toList_iff.mp hp, hundefined⟩)

end ZoneSkims
