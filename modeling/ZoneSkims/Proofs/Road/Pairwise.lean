import ZoneSkims.Proofs.Road.EarlyStop
import ZoneSkims.Proofs.Scalar.Elapsed

/-!
# Cheapest paths and trees

The cheapest path from a source to a target has the values that the tree of the source gives the
target. A tree takes the magnitude of the time that has passed and a path the plain difference, and
these are the same since no node is reached before the departure.

* `RoadSearch.label_of_run`: no label of a tree is earlier than the departure.
* `RoadSearch.exists_cheapestPath`: the cheapest path to a node of the network.
-/

namespace ZoneSkims

variable {α : Type} [Scalar α]

namespace RoadSearch

variable {search : RoadSearch α} {direction : Direction} {maxCost rootTime departure : α}
  {target : Option NodeId} {state : SearchState α} {root source node : NodeId} {full : PathTree α}
  {label : Label α}

/-! ## Times -/

/-- A node is not reached before a time of day. -/
structure After (rootTime : α) (label : Label α) : Prop where
  isNumber : Scalar.IsNumber label.time
  orderedLe : Scalar.orderedLe rootTime label.time = true

variable [LawfulScalar α] [LawfulClock α]

theorem After.offer {near : Label α} {id : LinkId} {link : Link α} (h : After rootTime near)
    (hoffer : search.Offers .forward near id link label) : After rootTime label := by
  obtain ⟨travelTime, hfinite, hnegative, htime⟩ := hoffer.exists_time
  have hsum : label.time = near.time + travelTime := htime
  refine ⟨hsum ▸ Scalar.isNumber_add h.isNumber hfinite, ?_⟩
  rw [hsum]
  exact Std.TransCmp.isLE_trans h.orderedLe
    (LawfulClock.orderedLe_add h.isNumber hfinite hnegative)

/-- The labels of a tree have numbers for costs and no time before the departure. -/
theorem label_of_run (hfinite : Scalar.isFinite rootTime = true)
    (hfull : search.run root rootTime .forward maxCost target = .ok full)
    (hlabel : full.label? node = some label) :
    Scalar.IsNumber label.cost ∧ After rootTime label := by
  refine run_labels (Q := fun label => Scalar.IsNumber label.cost ∧ After rootTime label)
    ⟨Scalar.isNumber_of_isFinite LawfulScalar.isFinite_zero,
      Scalar.isNumber_of_isFinite hfinite, ?_⟩
    (fun label h => ⟨h.1, h.2.isNumber, h.2.orderedLe⟩)
    (fun near id link label h hoffer => ⟨?_, h.2.offer hoffer⟩) hfull hlabel
  · have hself : Scalar.order rootTime rootTime = .eq := Std.ReflCmp.compare_self
    rw [rootLabel, Scalar.orderedLe, hself]
    rfl
  · obtain ⟨linkCost, hcost, -, heq⟩ := hoffer.exists_cost
    rw [heq]
    exact Scalar.isNumber_add h.1 hcost

/-! ## Paths -/

omit [LawfulClock α] in
theorem exists_cheapestPath (hfull : search.treeFrom source departure Scalar.infinity = .ok full)
    (hnode : search.network.contains node = true) :
    ∃ links, search.cheapestPath source node departure =
      .ok ((full.label? node).map fun label =>
        { links, cost := label.cost, travelTime := label.time - departure,
          distance := label.distance }) := by
  obtain ⟨tree, htree, hlabel, -⟩ := exists_target_tree hfull node
  refine ⟨(tree.pathTo? search.network node).getD [], ?_⟩
  rw [cheapestPath, if_pos hnode, htree, ← hlabel]
  rfl

end RoadSearch

end ZoneSkims
