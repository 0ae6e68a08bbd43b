import ZoneSkims.Proofs.Road.Sweep
import ZoneSkims.Proofs.Scalar.Exact

/-!
# Earliest arrivals

Travel times may change with the time of day, as long as nobody who enters a link later leaves it
earlier. With the travel time as cost, a label of a search from a source is as dear as the time that
has passed since the departure, so that the cheapest node is the next one in time. All costs are
kept without rounding.

* `RoadSearch.NonOvertaking`: what is asked of the travel times.
* `RoadSearch.arrivalTime`: the time of day at the end of a path.
* `RoadSearch.Complete.exists_time_le`: no path is earlier than the label of its last node.
* `RoadSearch.treeFrom_earliest`: the main result.
-/

namespace ZoneSkims

variable {K : Type} [Field K] [LinearOrder K]

namespace RoadSearch

/-- Travel times are numbers that are not negative, and nobody who enters a link later leaves it
earlier. -/
structure NonOvertaking (search : RoadSearch (Exact K)) (seconds : LinkId → K → K) : Prop where
  travelTime : ∀ id : LinkId, id.index < search.network.linkCount → ∀ time,
    search.travelTime.value id (.finite time) = .ok (.finite (seconds id time))
  nonnegative : ∀ id : LinkId, id.index < search.network.linkCount → ∀ time, 0 ≤ seconds id time
  leaves_le : ∀ id : LinkId, id.index < search.network.linkCount → ∀ time later, time ≤ later →
    time + seconds id time ≤ later + seconds id later

/-- The time of day after links that are entered one after the other. -/
def arrivalTime (seconds : LinkId → K → K) (departure : K) (ids : List LinkId) : K :=
  ids.foldl (fun time id => time + seconds id time) departure

omit [LinearOrder K] in
theorem arrivalTime_concat (seconds : LinkId → K → K) (departure : K) (ids : List LinkId)
    (id : LinkId) : arrivalTime seconds departure (ids ++ [id]) =
      arrivalTime seconds departure ids + seconds id (arrivalTime seconds departure ids) := by
  rw [arrivalTime, List.foldl_append]
  rfl

/-- The arrivals of all paths from a source to a node. -/
def arrivals (search : RoadSearch (Exact K)) (seconds : LinkId → K → K) (source : NodeId)
    (departure : K) (node : NodeId) : Set K :=
  {arrival | ∃ ids nodes, search.network.Leads .forward source ids nodes node ∧
    arrivalTime seconds departure ids = arrival}

/-- The label has the arrival of some path, and what has passed since the departure as cost. -/
def Timed (search : RoadSearch (Exact K)) (seconds : LinkId → K → K) (source : NodeId)
    (departure : K) (node : NodeId) (label : Label (Exact K)) : Prop :=
  ∃ arrival ∈ search.arrivals seconds source departure node,
    label.time = .finite arrival ∧ label.cost = .finite (arrival - departure)

variable {search : RoadSearch (Exact K)} {seconds : LinkId → K → K} {source node : NodeId}
  {departure : K} {state : SearchState (Exact K)} {id : LinkId} {link : Link (Exact K)}
  {near label : Label (Exact K)}

omit [LinearOrder K] in
theorem arrivals.follow {time : K}
    (h : time ∈ search.arrivals seconds source departure (Direction.forward.nearEnd link))
    (hlink : search.network.links[id.index]? = some link) :
    time + seconds id time ∈
      search.arrivals seconds source departure (Direction.forward.farEnd link) := by
  obtain ⟨ids, nodes, hleads, rfl⟩ := h
  exact ⟨ids ++ [id], _, hleads.follow hlink, arrivalTime_concat seconds departure ids id⟩

/-! ## Offers -/

namespace NonOvertaking

theorem exists_offer (h : search.NonOvertaking seconds)
    (hcost : search.cost.value = search.travelTime.value)
    (hlink : search.network.links[id.index]? = some link) {time : K}
    (htime : near.time = .finite time) : ∃ label, search.Offers .forward near id link label := by
  have hid := (Array.getElem?_eq_some_iff.mp hlink).1
  have hvalue := h.travelTime id hid time
  have hnegative := Exact.finite_not_lt_zero.mpr (h.nonnegative id hid time)
  refine ⟨_, hlink, .finite (seconds id time), .finite (seconds id time), ?_, rfl⟩
  rw [htime]
  exact linkValues_eq hvalue (by rw [hcost, hvalue]) rfl hnegative rfl hnegative

/-- An offer is later and dearer by the seconds on the link. -/
theorem offer_eq (h : search.NonOvertaking seconds)
    (hcost : search.cost.value = search.travelTime.value) {time total : K}
    (htime : near.time = .finite time) (htotal : near.cost = .finite total)
    (hoffer : search.Offers .forward near id link label) :
    label.time = .finite (time + seconds id time) ∧
      label.cost = .finite (total + seconds id time) := by
  obtain ⟨hlink, travelTime, linkCost, hvalues, rfl⟩ := hoffer
  rw [htime] at hvalues
  obtain ⟨htravelTime, hlinkCost⟩ := ok_linkValues search id _ _ hvalues
  have hvalue := h.travelTime id (Array.getElem?_eq_some_iff.mp hlink).1 time
  rw [hcost] at hlinkCost
  cases htravelTime.symm.trans hvalue
  cases hlinkCost.symm.trans hvalue
  exact ⟨congrArg (· + Exact.finite (seconds id time)) htime,
    congrArg (· + Exact.finite (seconds id time)) htotal⟩

/-- What a link offers keeps the cost equal to the time that has passed. -/
theorem inherits (h : search.NonOvertaking seconds)
    (hcost : search.cost.value = search.travelTime.value) (source : NodeId) (departure : K) :
    search.Inherits .forward (Timed search seconds source departure) where
  settle _ _ := id
  exists_offer := by
    rintro id link near hlink ⟨time, -, htime, -⟩
    exact h.exists_offer hcost hlink htime
  offer := by
    rintro near id link label ⟨time, harrival, htime, htotal⟩ hoffer
    obtain ⟨hlater, hdearer⟩ := h.offer_eq hcost htime htotal hoffer
    refine ⟨_, arrivals.follow harrival hoffer.found, hlater, ?_⟩
    rw [hdearer, sub_add_eq_add_sub]

end NonOvertaking

/-! ## All paths -/

variable [IsStrictOrderedRing K]

/-- All labels of a search without bound are settled. -/
theorem Complete.settled {P : NodeId → Label (Exact K) → Prop} {direction : Direction}
    (h : Complete search direction P source Scalar.infinity state)
    (hlabel : state.labelAt node = some label) : label.settled = true := by
  cases hflag : label.settled with
  | true => rfl
  | false => exact absurd (h.beyond node label hlabel hflag) (Scalar.not_infinity_lt _)

/-- A node at the end of a path has a label that is not later than the path. -/
theorem Complete.exists_time_le
    (h : Complete search .forward (Timed search seconds source departure) source Scalar.infinity
      state)
    (hseconds : search.NonOvertaking seconds)
    (hcost : search.cost.value = search.travelTime.value) {ids : List LinkId}
    {nodes : List NodeId} (hleads : search.network.Leads .forward source ids nodes node) :
    ∃ label time, state.labelAt node = some label ∧ label.time = .finite time ∧
      time ≤ arrivalTime seconds departure ids := by
  -- A label that is cheaper than another is earlier, too.
  have hearlier : ∀ {node label time total}, state.labelAt node = some label →
      label.cost ≤ .finite total → departure + total ≤ time →
      ∃ time', label.time = .finite time' ∧ time' ≤ time := by
    intro node label time total hlabel hle htotal
    obtain ⟨time', -, htime', hpassed⟩ := (h.priced node label hlabel).inherited
    rw [hpassed, Exact.finite_le] at hle
    exact ⟨time', htime', by linarith⟩
  induction hleads with
  | root =>
    obtain ⟨label, hlabel, hle⟩ := h.root
    obtain ⟨time, htime, hle⟩ := hearlier hlabel hle (add_zero departure).le
    exact ⟨label, time, hlabel, htime, hle⟩
  | @follow ids nodes id link hleads hlink ih =>
    obtain ⟨near, time, hnear, htime, hle⟩ := ih
    obtain ⟨time', -, htime', htotal⟩ := (h.priced _ near hnear).inherited
    obtain rfl : time' = time := Exact.finite.inj (htime'.symm.trans htime)
    obtain ⟨offer, hoffer⟩ := hseconds.exists_offer hcost hlink htime
    obtain ⟨-, hdearer⟩ := hseconds.offer_eq hcost htime htotal hoffer
    obtain ⟨far, hfar, hfarCost⟩ := h.followed id link near offer hnear (h.settled hnear) hoffer
      (by rw [hdearer]; exact Scalar.lt_infinity_of_isFinite rfl)
    have hstep := hseconds.leaves_le id (Array.getElem?_eq_some_iff.mp hlink).1 _ _ hle
    rw [hdearer] at hfarCost
    obtain ⟨farTime, hfarTime, hfarLe⟩ := hearlier hfar hfarCost
      (show departure + (time' - departure + seconds id time') ≤ time' + seconds id time' by
        linarith)
    refine ⟨far, farTime, hfar, hfarTime, ?_⟩
    rw [arrivalTime_concat]
    exact hfarLe.trans hstep

/-- In a built network whose travel times let nobody overtake, with the travel time as cost, the
whole search from a source succeeds. It settles the nodes to which a path leads. The time at a node
is the earliest arrival of all paths to it, and the cost is the least travel time. -/
theorem treeFrom_earliest {draft : NetworkDraft (Exact K)} (search : RoadSearch (Exact K))
    (hbuild : draft.build = .ok search.network) (hlinks : draft.links.size < 2 ^ 32)
    {seconds : LinkId → K → K} (hseconds : search.NonOvertaking seconds)
    (hcost : search.cost.value = search.travelTime.value) {source : NodeId}
    (hsource : search.network.contains source = true) (departure : K) :
    ∃ tree, search.treeFrom source (.finite departure) Scalar.infinity = .ok tree ∧
      ∀ node : NodeId,
        ((tree.label? node).isSome = true ↔ ∃ ids nodes,
          search.network.Leads .forward source ids nodes node) ∧
        ∀ label, tree.label? node = some label → ∃ arrival duration,
          label.time = .finite arrival ∧
          IsLeast (search.arrivals seconds source departure node) arrival ∧
          label.cost = .finite duration ∧
          IsLeast ((· - departure) '' search.arrivals seconds source departure node) duration := by
  obtain ⟨-, hsound⟩ := NetworkDraft.sound_build hbuild
  have hcount : search.network.linkCount < 2 ^ 32 :=
    NetworkDraft.linkCount_of_build hbuild ▸ hlinks
  have hstart : Timed search seconds source departure source (rootLabel (.finite departure)) :=
    ⟨departure, ⟨[], [source], .root, rfl⟩, rfl, congrArg Exact.finite (sub_self departure).symm⟩
  obtain ⟨state, hrun, hcomplete⟩ := exists_complete (hseconds.inherits hcost source departure)
    hsound hcount hsource hstart Scalar.isNumber_infinity
  refine ⟨_, hrun, fun node => ⟨⟨fun hsome => ?_, ?_⟩, fun label hlabel => ?_⟩⟩
  · obtain ⟨label, hlabel⟩ := Option.isSome_iff_exists.mp hsome
    obtain ⟨hlabel, -⟩ := SearchState.label?_tree.mp hlabel
    obtain ⟨_, ⟨ids, nodes, hleads, -⟩, -⟩ := (hcomplete.priced node label hlabel).inherited
    exact ⟨ids, nodes, hleads⟩
  · rintro ⟨ids, nodes, hleads⟩
    obtain ⟨label, -, hlabel, -⟩ := hcomplete.exists_time_le hseconds hcost hleads
    exact Option.isSome_iff_exists.mpr
      ⟨label, SearchState.label?_tree.mpr ⟨hlabel, hcomplete.settled hlabel⟩⟩
  · obtain ⟨hlabel, -⟩ := SearchState.label?_tree.mp hlabel
    obtain ⟨arrival, harrival, htime, hpassed⟩ := (hcomplete.priced node label hlabel).inherited
    have hleast : IsLeast (search.arrivals seconds source departure node) arrival := by
      refine ⟨harrival, ?_⟩
      rintro _ ⟨ids, nodes, hleads, rfl⟩
      obtain ⟨known, time, hknown, hknownTime, hle⟩ :=
        hcomplete.exists_time_le hseconds hcost hleads
      obtain rfl : label = known := Option.some.inj (hlabel.symm.trans hknown)
      obtain rfl : arrival = time := Exact.finite.inj (htime.symm.trans hknownTime)
      exact hle
    refine ⟨arrival, arrival - departure, htime, hleast, hpassed,
      Set.mem_image_of_mem _ harrival, ?_⟩
    rintro _ ⟨time, hmem, rfl⟩
    exact sub_le_sub_right (hleast.2 hmem) departure

end RoadSearch

/-! ## An example -/

/-- A village with a pier and an island, and a long road over a bridge. -/
noncomputable def island : NetworkDraft (Exact ℚ) :=
  let draft := (NetworkDraft.empty.addNode ⟨.finite 0, .finite 0⟩).2
  let draft := (draft.addNode ⟨.finite 500, .finite 0⟩).2
  let draft := (draft.addNode ⟨.finite 500, .finite 500⟩).2
  let draft := (draft.addLink ⟨0⟩ ⟨1⟩ (.car (.finite 500) (.finite 5))).2
  let draft := (draft.addLink ⟨1⟩ ⟨2⟩ (.car (.finite 500) (.finite 5))).2
  (draft.addLink ⟨0⟩ ⟨2⟩ (.car (.finite 5000) (.finite 5))).2

/-- At the pier everyone waits for the time 600, when the ferry goes for the first time. -/
def ferrySeconds (id : LinkId) (time : ℚ) : ℚ :=
  if id = ⟨1⟩ then max (600 - time) 0 + 300 else if id = ⟨2⟩ then 1000 else 100

def ferry : LinkFunction (Exact ℚ) where
  value id time :=
    match time with
    | .finite time => .ok (.finite (ferrySeconds id time))
    | other => .ok other
  timeInvariant := false

noncomputable def islandSearch : RoadSearch (Exact ℚ) where
  network := island.layOut
  travelTime := ferry
  cost := .timeCost ferry

theorem nonOvertaking_islandSearch : islandSearch.NonOvertaking ferrySeconds where
  travelTime _ _ _ := rfl
  nonnegative id _ time := by
    unfold ferrySeconds
    split_ifs
    · exact add_nonneg (le_max_right _ _) (by norm_num)
    · norm_num
    · norm_num
  leaves_le id _ time later h := by
    unfold ferrySeconds
    split_ifs
    · rcases max_cases (600 - time) 0 with ⟨hmax, -⟩ | ⟨hmax, -⟩
      · linarith [le_max_left (600 - later) 0]
      · linarith [le_max_right (600 - later) 0]
    · linarith
    · linarith

/-- Leaving the village at 0, the island is reached with the ferry, at 900. -/
theorem treeFrom_earliest_island : island.build = .ok islandSearch.network ∧
    island.links.size < 2 ^ 32 ∧ islandSearch.NonOvertaking ferrySeconds ∧
      islandSearch.cost.value = islandSearch.travelTime.value ∧
      islandSearch.network.contains ⟨0⟩ = true ∧
      ∃ tree, islandSearch.treeFrom ⟨0⟩ (.finite 0) Scalar.infinity = .ok tree ∧
        tree.time? ⟨2⟩ = some (.finite 900) ∧
        ∀ node : NodeId,
          ((tree.label? node).isSome = true ↔ ∃ ids nodes,
            islandSearch.network.Leads .forward ⟨0⟩ ids nodes node) ∧
          ∀ label, tree.label? node = some label → ∃ arrival duration,
            label.time = .finite arrival ∧
            IsLeast (islandSearch.arrivals ferrySeconds ⟨0⟩ 0 node) arrival ∧
            label.cost = .finite duration ∧
            IsLeast ((· - 0) '' islandSearch.arrivals ferrySeconds ⟨0⟩ 0 node) duration := by
  have hbuild : island.build = .ok islandSearch.network :=
    NetworkDraft.build_eq_ok.mpr ⟨by decide +kernel, rfl, rfl⟩
  have hsource : islandSearch.network.contains ⟨0⟩ = true := by decide
  obtain ⟨tree, htree, hearliest⟩ := RoadSearch.treeFrom_earliest islandSearch hbuild (by decide)
    nonOvertaking_islandSearch rfl hsource 0
  have htime : ((islandSearch.treeFrom ⟨0⟩ (.finite 0) Scalar.infinity).toOption.any fun tree =>
      decide (tree.time? ⟨2⟩ = some (.finite 900))) = true := by
    decide +kernel
  obtain ⟨tree', htree', htime⟩ := exists_of_any htime
  obtain rfl : tree = tree' := Except.ok.inj (htree.symm.trans htree')
  exact ⟨hbuild, by decide, nonOvertaking_islandSearch, rfl, hsource, tree, htree, htime, hearliest⟩

end ZoneSkims
