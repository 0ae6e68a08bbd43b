import ZoneSkims.Proofs.Transit.Rooftop
import ZoneSkims.Skim.Transit

/-!
# Coherent averages of two zones

What holds of the averages of each pair of points of two zones also holds of the means over all
pairs, which are what is stored. The stops near a point are those that are walked to, and no walk
takes less than no time.

* `TransitRouter.Summarizes`: the averages of all pairs of points of two zones.
* `TransitRouter.Connects`: a connection leads from one place to another.
* `TransitRouter.Summarizes.coherent`, `TransitRouter.Summarizes.ne_nil`: the averages of the pairs
  are coherent, and there are some if there is a connection.
* `transitCell_coherent`: the means of coherent averages are coherent.
-/

namespace ZoneSkims

open Exact

/-! ## Pairs of points -/

section Pairs

variable {α : Type} [Scalar α] {window : Window α} {trees : List (List (TransitTree α))}
  {egress : List (List (NearStop α))} {found : List (WindowAverages α)}

/-- The averages of all pairs of points of two zones that have a connection. -/
def TransitRouter.Summarizes (router : TransitRouter α) (window : Window α)
    (origin destination : Zone α) (found : List (WindowAverages α)) : Prop :=
  ∃ origins trees egress, origin.points.mapM router.nearStops = .ok origins ∧
    destination.points.mapM router.nearStops = .ok egress ∧
    origins.mapM (fun stops => router.trees stops window) = .ok trees ∧
    summaries window trees egress = .ok found

theorem mem_summaries (h : summaries window trees egress = .ok found) {s : WindowAverages α} :
    s ∈ found ↔ ∃ pointTrees ∈ trees, ∃ pointEgress ∈ egress,
      averagesTowards window pointTrees pointEgress = .ok (some s) := by
  obtain ⟨lists, hlists, h⟩ := bind_eq_ok.mp h
  cases h
  simp only [List.mem_filterMap, List.mem_flatten, id_eq, exists_eq_right]
  constructor
  · rintro ⟨averages, hmem, hs⟩
    obtain ⟨pointTrees, htrees, haverages⟩ := (mem_iff_of_mapM_eq_ok hlists).mp hmem
    exact ⟨pointTrees, htrees, (mem_iff_of_mapM_eq_ok haverages).mp hs⟩
  · rintro ⟨pointTrees, htrees, hs⟩
    obtain ⟨averages, hmem, haverages⟩ := exists_of_mapM_eq_ok hlists htrees
    exact ⟨averages, hmem, (mem_iff_of_mapM_eq_ok haverages).mpr hs⟩

theorem exists_of_summaries (h : summaries window trees egress = .ok found)
    {pointTrees : List (TransitTree α)} {pointEgress : List (NearStop α)}
    (htrees : pointTrees ∈ trees) (hegress : pointEgress ∈ egress) :
    ∃ averages, averagesTowards window pointTrees pointEgress = .ok averages := by
  obtain ⟨lists, hlists, -⟩ := bind_eq_ok.mp h
  obtain ⟨averages, -, haverages⟩ := exists_of_mapM_eq_ok hlists htrees
  obtain ⟨s, -, hs⟩ := exists_of_mapM_eq_ok haverages hegress
  exact ⟨s, hs⟩

end Pairs

/-! ## Stops near a point -/

namespace TransitRouter

section Near

variable {α : Type} [Scalar α] {router : TransitRouter α} {place : Coord α}

theorem not_distance_lt_zero_of_stopsWithin [LawfulScalar α] {timetable : Timetable α} {radius : α}
    {near : StopId × α} (h : near ∈ timetable.stopsWithin place radius) : ¬ near.2 < 0 := by
  obtain ⟨⟨i, square⟩, -, rfl⟩ := List.mem_map.mp (List.mem_mergeSort.mp h)
  exact LawfulScalar.not_sqrt_lt_zero square

theorem not_distance_lt_zero_of_nearestStop? [LawfulScalar α] {timetable : Timetable α}
    {nearest : Option (StopId × α)} (h : timetable.nearestStop? place = .ok nearest)
    {near : StopId × α} (hnear : nearest = some near) : ¬ near.2 < 0 := by
  obtain ⟨found, -, h⟩ := bind_eq_ok.mp h
  cases h
  obtain ⟨i, -, hstop⟩ := Option.bind_eq_some_iff.mp hnear
  obtain ⟨stop, -, rfl⟩ := Option.map_eq_some_iff.mp hstop
  exact LawfulScalar.not_sqrt_lt_zero _

/-- Nobody walks back in time to a stop. -/
theorem not_walkTime_lt_zero [LawfulScalar α] (hvalid : router.parameters.validate = .ok ()) :
    Ok (router.nearStops place) fun stops => ∀ a ∈ stops, ¬ a.walkTime < 0 := by
  obtain ⟨_, hspeed, hvalid⟩ := bind_eq_ok.mp hvalid
  obtain ⟨_, hfactor, -⟩ := bind_eq_ok.mp hvalid
  have hspeed := (Scalar.isPositive_iff.mp (requirePositive_eq_ok_iff.mp hspeed)).2
  have hfactor := (Scalar.isPositive_iff.mp (requirePositive_eq_ok_iff.mp hfactor)).2
  have hwalks : ∀ stops : List (StopId × α), (∀ near ∈ stops, ¬ near.2 < 0) →
      ∀ a ∈ stops.map fun near => NearStop.mk near.1 (router.parameters.walkTime near.2),
        ¬ a.walkTime < 0 := by
    intro stops hstops a ha
    obtain ⟨near, hnear, rfl⟩ := List.mem_map.mp ha
    exact LawfulScalar.not_div_lt_zero (LawfulScalar.not_mul_lt_zero (hstops near hnear)
      (Scalar.not_lt_of_le (Scalar.le_of_lt hfactor))) hspeed
  unfold nearStops
  dsimp only
  split
  · refine Ok.bind (Ok.self _) fun stops hstops => Ok.pure (hwalks stops fun near hnear => ?_)
    rw [map_eq_pure_bind, bind_eq_ok] at hstops
    obtain ⟨nearest, hnearest, hlist⟩ := hstops
    cases hlist
    exact not_distance_lt_zero_of_nearestStop? hnearest (Option.mem_toList.mp hnear)
  · exact Ok.pure (hwalks _ fun _ => not_distance_lt_zero_of_stopsWithin)

end Near

/-! ## Connections between two places -/

section Connections

variable {α : Type} [Scalar α]

/-- One of the departures of the window gives a connection that arrives. -/
def Connects (router : TransitRouter α) (window : Window α) (source target : Coord α) : Prop :=
  ∃ access egress trees tree c, router.nearStops source = .ok access ∧
    router.nearStops target = .ok egress ∧ router.trees access window = .ok trees ∧
    tree ∈ trees ∧ tree.connection? egress = some c ∧ c.arrival < Scalar.infinity

end Connections

variable {K : Type} [Field K] [LinearOrder K] {router : TransitRouter (Exact K)}
  {access egress : List (NearStop (Exact K))} {window : Window (Exact K)}
  {trees : List (TransitTree (Exact K))}

theorem contains_of_departures :
    Ok (router.departures access window) fun times =>
      ∀ time ∈ times, window.contains time = true := by
  unfold departures
  refine Ok.bind (Ok.mapM_flatten (Q := (window.contains · = true)) fun a _ => ?_)
    fun lists hlists => Ok.pure fun time htime => ?_
  · refine Ok.bind (Ok.trivial _) fun served _ => ?_
    refine Ok.bind (Ok.mapM_flatten (Q := (window.contains · = true)) fun entry _ => ?_)
      fun lists hlists => Ok.pure hlists
    unfold catchTimes
    refine Ok.bind (Ok.trivial _) fun route _ => Ok.bind (Ok.trivial _) fun times _ => ?_
    exact Ok.pure fun time htime => (List.mem_filter.mp htime).2
  · rw [mem_dropRepeats fun _ _ => Exact.eq_of_beq, List.mem_mergeSort] at htime
    exact hlists time htime

/-- The trees of a window are those of departures in it. -/
theorem tree_of_trees (h : router.trees access window = .ok trees) {tree : TransitTree (Exact K)}
    (hmem : tree ∈ trees) : window.contains tree.departure = true ∧
      router.tree access tree.departure = .ok tree := by
  obtain ⟨times, htimes, h⟩ := bind_eq_ok.mp h
  obtain ⟨time, htime, htree⟩ := (mem_iff_of_mapM_eq_ok h).mp hmem
  rw [departure_of_tree htree]
  exact ⟨contains_of_departures times htimes time htime, htree⟩

variable [IsStrictOrderedRing K]

/-- The averages of a pair of points are coherent. -/
theorem coherent_of_averagesTowards {start finish : K} {averages : WindowAverages (Exact K)}
    (htimetable : router.timetable.Forward) (hlt : start < finish)
    (htrees : router.trees access ⟨finite start, finite finish⟩ = .ok trees)
    (hegress : ∀ e ∈ egress, ¬ e.walkTime < 0)
    (h : averagesTowards ⟨finite start, finite finish⟩ trees egress = .ok (some averages)) :
    averages.Coherent (finish - start) router.parameters.maxTransfers 1 1 := by
  refine rooftop_coherent hlt (fun c hc => ?_) (pairwise_undominated _) h
  obtain ⟨tree, htree, hsome⟩ := List.mem_filterMap.mp (mem_of_mem_undominated hc)
  obtain ⟨hwindow, hmade⟩ := tree_of_trees htrees htree
  obtain ⟨departure, hdeparture, -⟩ := Window.eq_finite_of_contains hwindow
  rw [hdeparture] at hmade
  have harrivals := coherent_of_tree htimetable access tree hmade
  have hsame : c.departure = tree.departure := by
    obtain ⟨ending, -, rfl⟩ := Option.map_eq_some_iff.mp hsome
    rfl
  refine ⟨TransitTree.coherent_of_connection? hdeparture (fun stop label hlabel =>
    (harrivals stop label hlabel).mono (Nat.min_le_left _ _)) hegress hsome
      (lt_infinity_of_mem_undominated hc), ?_⟩
  rw [hsame]
  exact hwindow

omit [IsStrictOrderedRing K] in
/-- A pair of points with a connection has averages. -/
theorem isSome_of_averagesTowards {tree : TransitTree (Exact K)} {c : Connection (Exact K)}
    {averages : Option (WindowAverages (Exact K))} (htree : tree ∈ trees)
    (hc : tree.connection? egress = some c) (harrives : c.arrival < Scalar.infinity)
    (h : averagesTowards window trees egress = .ok averages) : averages.isSome = true := by
  have hmem : c ∈ trees.filterMap fun tree => tree.connection? egress :=
    List.mem_filterMap.mpr ⟨tree, htree, hc⟩
  have hne := undominated_ne_nil hmem harrives
  unfold averagesTowards rooftop at h
  rw [if_neg (by simpa using hne)] at h
  obtain ⟨parts, -, h⟩ := bind_eq_ok.mp h
  cases h
  rfl

/-! ## Connections between two zones -/

variable {origin destination : Zone (Exact K)} {found : List (WindowAverages (Exact K))}

theorem Summarizes.coherent {start finish : K} (htimetable : router.timetable.Forward)
    (hvalid : router.parameters.validate = .ok ()) (hlt : start < finish)
    (h : router.Summarizes ⟨finite start, finite finish⟩ origin destination found) :
    ∀ s ∈ found, s.Coherent (finish - start) router.parameters.maxTransfers 1 1 := by
  obtain ⟨origins, trees, egress, -, hegress, htrees, hfound⟩ := h
  intro s hs
  obtain ⟨pointTrees, hmem, pointEgress, hmem', haverages⟩ := (mem_summaries hfound).mp hs
  obtain ⟨stops, -, hstops⟩ := (mem_iff_of_mapM_eq_ok htrees).mp hmem
  obtain ⟨point, -, hpoint⟩ := (mem_iff_of_mapM_eq_ok hegress).mp hmem'
  exact coherent_of_averagesTowards htimetable hlt hstops
    (not_walkTime_lt_zero hvalid pointEgress hpoint) haverages

omit [IsStrictOrderedRing K] in
theorem Summarizes.ne_nil (h : router.Summarizes window origin destination found)
    {source target : Coord (Exact K)} (hsource : source ∈ origin.points)
    (htarget : target ∈ destination.points) (hconnects : router.Connects window source target) :
    found ≠ [] := by
  obtain ⟨origins, trees, egress, horigins, hegress, htrees, hfound⟩ := h
  obtain ⟨access, walks, drawn, tree, c, haccess, hwalks, hdrawn, htree, hc, harrives⟩ := hconnects
  have hstops := (mem_iff_of_mapM_eq_ok horigins).mpr ⟨source, hsource, haccess⟩
  have hdrawn' := (mem_iff_of_mapM_eq_ok htrees).mpr ⟨access, hstops, hdrawn⟩
  have hwalks' := (mem_iff_of_mapM_eq_ok hegress).mpr ⟨target, htarget, hwalks⟩
  obtain ⟨averages, haverages⟩ := exists_of_summaries hfound hdrawn' hwalks'
  obtain ⟨s, rfl⟩ :=
    Option.isSome_iff_exists.mp (isSome_of_averagesTowards htree hc harrives haverages)
  exact List.ne_nil_of_mem ((mem_summaries hfound).mpr ⟨drawn, hdrawn', walks, hwalks', haverages⟩)

end TransitRouter

/-! ## Means over pairs of points -/

namespace WindowAverages

section Operations

variable {α : Type} [Scalar α]

def add (s t : WindowAverages α) : WindowAverages α :=
  { adaptionTime := s.adaptionTime + t.adaptionTime
    frequency := s.frequency + t.frequency
    hourlyFrequency := s.hourlyFrequency + t.hourlyFrequency
    travelTime := s.travelTime + t.travelTime
    accessTime := s.accessTime + t.accessTime
    egressTime := s.egressTime + t.egressTime
    transfers := s.transfers + t.transfers
    inVehicleDistance := s.inVehicleDistance + t.inVehicleDistance
    trainTimeShare := s.trainTimeShare + t.trainTimeShare
    trainDistanceShare := s.trainDistanceShare + t.trainDistanceShare }

def div (s : WindowAverages α) (n : α) : WindowAverages α :=
  { adaptionTime := s.adaptionTime / n
    frequency := s.frequency / n
    hourlyFrequency := s.hourlyFrequency / n
    travelTime := s.travelTime / n
    accessTime := s.accessTime / n
    egressTime := s.egressTime / n
    transfers := s.transfers / n
    inVehicleDistance := s.inVehicleDistance / n
    trainTimeShare := s.trainTimeShare / n
    trainDistanceShare := s.trainDistanceShare / n }

theorem values_foldl_add (found : List (WindowAverages α)) : ∀ total : WindowAverages α,
    found.foldl (fun totals s => List.zipWith (· + ·) totals s.values) total.values =
      (found.foldl add total).values := by
  induction found with
  | nil => exact fun _ => rfl
  | cons s found ih => exact fun total => ih (total.add s)

end Operations

variable {K : Type} [Field K] [LinearOrder K] [IsStrictOrderedRing K] {span count weight : K}
  {maxTransfers : Nat} {s t : WindowAverages (Exact K)}

theorem Coherent.add {count' weight' : K} (h : s.Coherent span maxTransfers count weight)
    (h' : t.Coherent span maxTransfers count' weight') :
    (s.add t).Coherent span maxTransfers (count + count') (weight + weight') := by
  obtain ⟨f, hf, hcount⟩ := h.frequency
  obtain ⟨f', hf', hcount'⟩ := h'.frequency
  obtain ⟨travel, access, egress, htravel, haccess, hegress, hwalks⟩ := h.times
  obtain ⟨travel', access', egress', htravel', haccess', hegress', hwalks'⟩ := h'.times
  refine ⟨⟨f + f', ?_, add_le_add hcount hcount'⟩, ?_, ⟨travel + travel', access + access',
    egress + egress', ?_, ?_, ?_, ?_⟩, ?_, not_add_lt_zero h.distance h'.distance,
    h.trainTimeShare.add h'.trainTimeShare, h.trainDistanceShare.add h'.trainDistanceShare⟩
  · rw [WindowAverages.add, hf, hf']
    rfl
  · rw [add_mul]
    exact h.adaptionTime.add h'.adaptionTime
  · rw [WindowAverages.add, htravel, htravel']
    rfl
  · rw [WindowAverages.add, haccess, haccess']
    rfl
  · rw [WindowAverages.add, hegress, hegress']
    rfl
  · linarith
  · rw [add_mul]
    exact h.transfers.add h'.transfers

theorem Coherent.div (h : s.Coherent span maxTransfers count weight) {n : K} (hn : 0 < n) :
    (s.div (finite n)).Coherent span maxTransfers (count / n) (weight / n) := by
  obtain ⟨f, hf, hcount⟩ := h.frequency
  obtain ⟨travel, access, egress, htravel, haccess, hegress, hwalks⟩ := h.times
  refine ⟨⟨f / n, ?_, div_le_div_of_nonneg_right hcount hn.le⟩, ?_, ⟨travel / n, access / n,
    egress / n, ?_, ?_, ?_, ?_⟩, ?_, not_div_lt_zero h.distance ?_, h.trainTimeShare.div hn,
    h.trainDistanceShare.div hn⟩
  · rw [WindowAverages.div, hf, finite_div _ hn.ne']
  · rw [div_mul_eq_mul_div]
    exact h.adaptionTime.div hn
  · rw [WindowAverages.div, htravel, finite_div _ hn.ne']
  · rw [WindowAverages.div, haccess, finite_div _ hn.ne']
  · rw [WindowAverages.div, hegress, finite_div _ hn.ne']
  · rw [← add_div]
    exact div_le_div_of_nonneg_right hwalks hn.le
  · rw [div_mul_eq_mul_div]
    exact h.transfers.div hn
  · exact finite_lt.mpr hn

theorem coherent_foldl_add {found : List (WindowAverages (Exact K))} :
    (∀ s ∈ found, s.Coherent span maxTransfers 1 1) → ∀ {total : WindowAverages (Exact K)},
      total.Coherent span maxTransfers count weight →
        (found.foldl add total).Coherent span maxTransfers (count + found.length)
          (weight + found.length) := by
  induction found generalizing count weight with
  | nil =>
    intro _ total htotal
    simpa using htotal
  | cons s found ih =>
    intro hfound total htotal
    obtain ⟨hs, hfound⟩ := List.forall_mem_cons.mp hfound
    have hsum := ih hfound (htotal.add hs)
    rw [add_assoc, add_assoc] at hsum
    rw [List.length_cons, Nat.cast_succ, add_comm (found.length : K)]
    exact hsum

end WindowAverages

/-- The cells of a pair of zones are the means of the averages of its pairs of points, and these
keep what holds of each of them. -/
theorem transitCell_coherent {K : Type} [Field K] [LinearOrder K] [IsStrictOrderedRing K] {span : K}
    {maxTransfers : Nat} {found : List (WindowAverages (Exact K))} (hne : found ≠ [])
    (hfound : ∀ s ∈ found, s.Coherent span maxTransfers 1 1) :
    ∃ mean : WindowAverages (Exact K), transitCell found = mean.values ∧
      mean.Coherent span maxTransfers 1 1 := by
  have hn : 0 < (found.length : K) := Nat.cast_pos.mpr (List.length_pos_of_ne_nil hne)
  have hsum := WindowAverages.coherent_foldl_add hfound WindowAverages.coherent_zero
  have hmean := hsum.div hn
  rw [zero_add, div_self hn.ne'] at hmean
  refine ⟨_, ?_, hmean⟩
  rw [transitCell, if_neg (by simpa using hne)]
  exact congrArg (List.map fun total => total / Scalar.ofNat found.length)
    (WindowAverages.values_foldl_add found WindowAverages.zero)

end ZoneSkims
