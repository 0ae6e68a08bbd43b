import ZoneSkims.Proofs.Scalar.Magnitude
import ZoneSkims.Proofs.Transit.Arrivals
import ZoneSkims.Proofs.Transit.Mileage
import ZoneSkims.Proofs.Transit.Soundness

/-!
# Trains

A router knows which of its routes are trains, and an arrival states which part of the time and the
distance in vehicles is due to them. No decision reads either. So to drop what arrivals state of
trains goes through every operation of a search, and leads to the search of a router to which no
route is a train. What an arrival states of trains is a part of what it states of all vehicles: a
ride adds to the whole what it adds to the part, or leaves the part as it is.

* `Arrival.withoutTrains`, `TransitRouter.withoutTrains`: what is left without trains.
* `TransitRouter.tree_withoutTrains`: trees are the same without trains.
* `TransitRouter.Possible.shares`: time and distance in trains are parts of those in vehicles.
* `TransitRouter.tree_of_trains`: what a test for trains changes, and what it does not.
-/

namespace ZoneSkims

variable {α : Type} [Scalar α]

/-! ## Without trains -/

/-- The arrival without what it states of trains. -/
def Arrival.withoutTrains (label : Arrival α) : Arrival α :=
  { label with trainTime := 0, trainDistance := 0 }

def Boarding.withoutTrains (b : Boarding α) : Boarding α :=
  { b with label := b.label.withoutTrains }

def RoundState.withoutTrains (state : RoundState α) : RoundState α :=
  { state with best := state.best.map Arrival.withoutTrains }

def TransitTree.withoutTrains (tree : TransitTree α) : TransitTree α :=
  { tree with arrivals := tree.arrivals.map Arrival.withoutTrains }

/-- The router to which no route is a train. -/
def TransitRouter.withoutTrains (router : TransitRouter α) : TransitRouter α :=
  { router with isTrain := router.isTrain.map fun _ => false }

theorem Arrival.withoutTrains_ride (label : Arrival α) (time rideTime rideDistance : α)
    (train : Bool) :
    (label.ride time rideTime rideDistance train).withoutTrains =
      label.withoutTrains.ride time rideTime rideDistance false := rfl

theorem RoundState.withoutTrains_improve (state : RoundState α) (stop : StopId)
    (label : Arrival α) :
    (state.improve stop label).withoutTrains =
      state.withoutTrains.improve stop label.withoutTrains := by
  rw [RoundState.improve, RoundState.withoutTrains, Array.map_setIfInBounds]
  rfl

@[simp] theorem RoundState.withoutTrains_best (state : RoundState α) :
    state.withoutTrains.best = state.best.map Arrival.withoutTrains := rfl

@[simp] theorem RoundState.withoutTrains_improved (state : RoundState α) :
    state.withoutTrains.improved = state.improved := rfl

namespace TransitRouter

/-! ## The same rounds -/

theorem alight_withoutTrains (route : Route α) (train : Bool) (b : Boarding α) (position : Nat)
    (stop : StopId) (state : RoundState α) :
    RoundState.withoutTrains <$> alight route train b position stop state =
      alight route false b.withoutTrains position stop state.withoutTrains := by
  simp only [alight, RoundState.withoutTrains_best, fetch_map, map_bind, bind_map_left]
  refine bind_congr fun time => bind_congr fun known => ?_
  by_cases hearlier : time < known.time
  · rw [if_pos hearlier, if_pos (show time < known.withoutTrains.time from hearlier)]
    simp only [map_bind, map_pure, RoundState.withoutTrains_improve, Arrival.withoutTrains_ride]
    rfl
  · rw [if_neg hearlier, if_neg (show ¬ time < known.withoutTrains.time from hearlier)]
    rfl

theorem board_withoutTrains (router : TransitRouter α) (route : Route α)
    (prev : Array (Arrival α)) (position : Nat) (stop : StopId) (boarded : Option (Boarding α)) :
    Option.map Boarding.withoutTrains <$> router.board route prev position stop boarded =
      router.withoutTrains.board route (prev.map Arrival.withoutTrains) position stop
        (boarded.map Boarding.withoutTrains) := by
  simp only [board, fetch_map, map_bind, bind_map_left]
  refine bind_congr fun here => ?_
  change _ = if (!here.isReached) = true then _ else _
  split
  · rfl
  · rw [map_bind]
    refine bind_congr fun found => ?_
    cases found with
    | none => rfl
    | some trip =>
      dsimp only
      rw [Option.any_map]
      change _ = if (boarded.any fun b => decide (b.trip ≤ trip)) = true then _ else _
      split
      · rfl
      · rw [map_bind]
        refine bind_congr fun time => ?_
        change _ = if (0 < here.legs &&
          decide (router.parameters.maxTransferWait < time - here.time)) = true then _ else _
        split <;> rfl

theorem rideCalls_withoutTrains (router : TransitRouter α) (route : Route α) (train : Bool)
    (prev : Array (Arrival α)) (calls : List (Call α × Nat)) (boarded : Option (Boarding α))
    (state : RoundState α) :
    RoundState.withoutTrains <$> router.rideCalls route train prev calls boarded state =
      router.withoutTrains.rideCalls route false (prev.map Arrival.withoutTrains) calls
        (boarded.map Boarding.withoutTrains) state.withoutTrains := by
  induction calls generalizing boarded state with
  | nil => rfl
  | cons entry calls ih =>
    rw [rideCalls_cons, rideCalls_cons, map_bind]
    simp only [map_bind, ih, ← board_withoutTrains, bind_map_left]
    cases boarded with
    | none => rfl
    | some b =>
      simp only [Option.map_some, ← alight_withoutTrains route train, bind_map_left]

theorem rideRoute_withoutTrains (router : TransitRouter α) (prev : Array (Arrival α))
    (state : RoundState α) (queued : RouteId × Nat) :
    RoundState.withoutTrains <$> router.rideRoute prev state queued =
      router.withoutTrains.rideRoute (prev.map Arrival.withoutTrains) state.withoutTrains
        queued := by
  simp only [rideRoute, map_bind, rideCalls_withoutTrains]
  refine bind_congr fun route => ?_
  simp only [withoutTrains, fetch_map, bind_map_left]
  rfl

theorem walk_withoutTrains (label : Arrival α) (state : RoundState α) (transfer : Transfer α) :
    RoundState.withoutTrains <$> walk label state transfer =
      walk label.withoutTrains state.withoutTrains transfer := by
  simp only [walk, RoundState.withoutTrains_best, fetch_map, map_bind, bind_map_left, map_pure]
  refine bind_congr fun known => congrArg pure ?_
  rw [apply_ite RoundState.withoutTrains, RoundState.withoutTrains_improve]
  rfl

theorem walkAll_withoutTrains (router : TransitRouter α) (state : RoundState α) :
    RoundState.withoutTrains <$> router.walkAll state =
      router.withoutTrains.walkAll state.withoutTrains := by
  have hsource : ∀ stop : StopId,
      Prod.map id Arrival.withoutTrains <$>
          (do return (stop, ← fetch state.best stop.index) : Checked (StopId × Arrival α)) =
        (do return (stop, ← fetch state.withoutTrains.best stop.index)) := by
    intro stop
    simp only [RoundState.withoutTrains_best, fetch_map, map_bind, bind_map_left, map_pure,
      Prod.map_apply, id_eq]
  have hsources := map_mapM (state.improved.mergeSort fun a b => a.raw ≤ b.raw)
    fun stop _ => hsource stop
  simp only [walkAll, map_bind, RoundState.withoutTrains_improved, ← hsources, bind_map_left]
  refine bind_congr fun sources => ?_
  rw [List.foldlM_map]
  refine map_foldlM _ (fun source _ walked => ?_) state
  simp only [map_bind]
  refine bind_congr fun transfers => ?_
  exact map_foldlM _ (fun transfer _ walked => walk_withoutTrains _ walked transfer) walked

theorem round_withoutTrains (router : TransitRouter α) (marked : List StopId)
    (best : Array (Arrival α)) :
    RoundState.withoutTrains <$> router.round marked best =
      router.withoutTrains.round marked (best.map Arrival.withoutTrains) := by
  simp only [round, map_bind, walkAll_withoutTrains]
  refine bind_congr fun queue => ?_
  have hridden := map_foldlM queue
    (fun queued _ state => rideRoute_withoutTrains router best state queued)
    { best, improved := [] }
  rw [← bind_map_left, hridden]
  rfl

/-! ## The same trees -/

theorem rounds_withoutTrains (router : TransitRouter α) (left done : Nat) (marked : List StopId)
    (best : Array (Arrival α)) :
    Prod.map (Array.map Arrival.withoutTrains) id <$> router.rounds left done marked best =
      router.withoutTrains.rounds left done marked (best.map Arrival.withoutTrains) := by
  induction left generalizing done marked best with
  | zero => rfl
  | succ left ih =>
    simp only [rounds]
    split
    · rfl
    · simp only [map_bind, ih, ← round_withoutTrains, bind_map_left]
      rfl

theorem enter_withoutTrains (departure : α) (state : RoundState α) (a : NearStop α) :
    RoundState.withoutTrains <$> enter departure state a =
      enter departure state.withoutTrains a := by
  simp only [enter, RoundState.withoutTrains_best, fetch_map, map_bind, bind_map_left, map_pure]
  refine bind_congr fun known => congrArg pure ?_
  rw [apply_ite RoundState.withoutTrains, RoundState.withoutTrains_improve]
  rfl

/-- A tree without what it states of trains is the tree of the router without trains. -/
theorem tree_withoutTrains (router : TransitRouter α) (access : List (NearStop α))
    (departure : α) :
    TransitTree.withoutTrains <$> router.tree access departure =
      router.withoutTrains.tree access departure := by
  have hnowhere : router.nowhere.map Arrival.withoutTrains = router.withoutTrains.nowhere :=
    Array.map_replicate
  have hentered := map_foldlM access (fun a _ state => enter_withoutTrains departure state a)
    { best := router.nowhere, improved := [] }
  rw [RoundState.withoutTrains, hnowhere] at hentered
  simp only [tree, map_bind, map_pure]
  change _ = access.foldlM (enter departure) ⟨router.withoutTrains.nowhere, []⟩ >>= _
  rw [← hentered, bind_map_left]
  refine bind_congr fun state => ?_
  dsimp only [RoundState.withoutTrains]
  rw [← rounds_withoutTrains, bind_map_left]
  rfl

end TransitRouter

/-! ## Parts of a whole -/

namespace Scalar

/-- A part of a whole, and not below 0. -/
structure IsShare (part whole : α) : Prop where
  zero_le : 0 ≤ part
  le : part ≤ whole

variable [LawfulScalar α] {part whole added : α}

theorem IsShare.zero : IsShare (0 : α) 0 :=
  ⟨isMeasure_zero.zero_le, isMeasure_zero.zero_le⟩

theorem IsShare.isMeasure_part (h : IsShare part whole) : IsMeasure part :=
  ⟨Scalar.isNumber_left h.le, Scalar.not_lt_of_le h.zero_le⟩

theorem IsShare.isMeasure_whole (h : IsShare part whole) : IsMeasure whole :=
  ⟨Scalar.isNumber_right h.le, Scalar.not_lt_of_le (Scalar.le_trans h.zero_le h.le)⟩

variable [LawfulSum α]

/-- Adding a measure on both sides keeps the order, even where it is infinite. -/
theorem IsShare.add_le_add (h : IsShare part whole) (hadded : IsMeasure added) :
    part + added ≤ whole + added := by
  have hpart := h.isMeasure_part.add hadded
  have hwhole := h.isMeasure_whole.add hadded
  by_cases hfinite : isFinite added = true
  · exact LawfulScalar.add_le_add_right hfinite h.le
  · have hbelow : -infinity < added := Scalar.lt_of_lt_of_le
      (LawfulScalar.isFinite_iff.mp LawfulScalar.isFinite_zero).1 hadded.zero_le
    have hinfinite : infinity ≤ added := Scalar.le_of_not_lt hadded.isNumber isNumber_infinity
      fun hlt => hfinite (LawfulScalar.isFinite_iff.mpr ⟨hbelow, hlt⟩)
    rw [LawfulScalar.add_comm whole added] at hwhole ⊢
    have hreach := LawfulScalar.le_add hwhole.isNumber h.isMeasure_whole.not_lt_zero
    exact Scalar.le_trans (LawfulScalar.le_infinity hpart.isNumber)
      (Scalar.le_trans hinfinite hreach)

/-- What is added to the whole is added to the part too, or not. -/
theorem IsShare.add (h : IsShare part whole) (hadded : IsMeasure added) (all : Bool) :
    IsShare (if all then part + added else part) (whole + added) := by
  cases all with
  | true => exact ⟨(h.isMeasure_part.add hadded).zero_le, h.add_le_add hadded⟩
  | false =>
    have hwhole := (h.isMeasure_whole.add hadded).isNumber
    exact ⟨h.zero_le, Scalar.le_trans h.le (LawfulScalar.le_add hwhole hadded.not_lt_zero)⟩

end Scalar

/-! ## Shares of an arrival -/

/-- Time and distance in trains are parts of those in all vehicles, where these are defined. -/
structure Arrival.Shares (label : Arrival α) : Prop where
  time : Scalar.IsShare label.trainTime label.inVehicleTime
  distance : Scalar.IsNumber label.inVehicleDistance →
    Scalar.IsShare label.trainDistance label.inVehicleDistance

namespace TransitRouter

section Shares

variable [LawfulScalar α] [LawfulSign α] {router : TransitRouter α} {departure : α}
  {label : Arrival α} {leg : Leg α} {source target : StopId}

/-- A ride from a stop that is reached takes a time that is not negative. -/
theorem isMeasure_rideTime (honward : router.timetable.Onward)
    (hreached : label.isReached = true) (hruns : leg.Runs router.timetable source target)
    (hready : leg.ready = label.time) (harrives : leg.arrival < Scalar.infinity) :
    Scalar.IsMeasure (leg.arrival - leg.departure) := by
  obtain ⟨n, hsound⟩ := honward.route_sound hruns.route
  have hcatch : label.time ≤ leg.departure := hready ▸ hruns.catches
  have hle := hsound.departureAt_le_arrivalAt hruns.departure hruns.arrival hruns.forward
  have hfinite : Scalar.isFinite leg.departure = true :=
    Scalar.isFinite_of_le_of_lt_infinity hreached hcatch (Scalar.lt_of_le_of_lt hle harrives)
  exact ⟨LawfulScalar.isNumber_sub (Scalar.isNumber_right hle) hfinite, fun hnegative =>
    Scalar.not_lt_of_le hle (LawfulSign.lt_of_sub_lt_zero hnegative)⟩

theorem Possible.shares [LawfulSum α] (honward : router.timetable.Onward)
    (h : router.Possible departure label) : label.Shares := by
  induction h with
  | unreached => exact ⟨.zero, fun _ => .zero⟩
  | enter walkTime => exact ⟨.zero, fun _ => .zero⟩
  | ride _ hreached hruns hready _ harrives ih =>
    have htime := isMeasure_rideTime honward hreached hruns hready harrives
    have hmetres := (honward.lengthens hruns.route).not_lt_zero hruns.metres hruns.forward
    refine ⟨ih.time.add htime _, fun hnumber => ?_⟩
    obtain ⟨hbefore, hmetres', -⟩ := LawfulSum.isNumber_add_iff.mp hnumber
    exact (ih.distance hbefore).add ⟨hmetres', hmetres⟩ _
  | walk _ _ _ ih => exact ⟨ih.time, ih.distance⟩

/-- Where all mileages are finite, distances in vehicles are defined. -/
theorem Possible.isMeasure_distance [LawfulSum α] (honward : router.timetable.Onward)
    (hfinite : ∀ route ∈ router.timetable.routes, ∀ metres ∈ route.mileage,
      Scalar.isFinite metres = true)
    (h : router.Possible departure label) : Scalar.IsMeasure label.inVehicleDistance := by
  induction h with
  | unreached => exact Scalar.isMeasure_zero
  | enter walkTime => exact Scalar.isMeasure_zero
  | ride _ _ hruns _ _ _ ih =>
    have hmem := Array.mem_of_getElem? (fetch_eq_ok.mp hruns.route)
    obtain ⟨last, first, hlast, hfirst, hmetres⟩ := Route.metresBetween_eq_ok.mp hruns.metres
    have hlast := hfinite _ hmem last (Array.mem_of_getElem? hlast)
    have hfirst := hfinite _ hmem first (Array.mem_of_getElem? hfirst)
    refine ih.add ⟨?_, ?_⟩
    · rw [← hmetres]
      exact LawfulScalar.isNumber_sub (Scalar.isNumber_of_isFinite hlast) hfirst
    · exact (honward.lengthens hruns.route).not_lt_zero hruns.metres hruns.forward
  | walk _ _ _ ih => exact ih

end Shares

section Tests

variable {router : TransitRouter α} {departure : α} {label : Arrival α}

/-- Where all vehicles are trains, what holds of vehicles holds of trains. -/
theorem Possible.eq_of_trains
    (htrains : ∀ i train, fetch router.isTrain i = .ok train → train = true)
    (h : router.Possible departure label) :
    label.trainTime = label.inVehicleTime ∧ label.trainDistance = label.inVehicleDistance := by
  induction h with
  | unreached => exact ⟨rfl, rfl⟩
  | enter walkTime => exact ⟨rfl, rfl⟩
  | ride _ _ _ _ htrain _ ih =>
    rw [htrains _ _ htrain, Arrival.ride, ih.1, ih.2]
    exact ⟨rfl, rfl⟩
  | walk _ _ _ ih => exact ih

theorem Possible.eq_zero_of_trains
    (htrains : ∀ i train, fetch router.isTrain i = .ok train → train = false)
    (h : router.Possible departure label) : label.trainTime = 0 ∧ label.trainDistance = 0 := by
  induction h with
  | unreached => exact ⟨rfl, rfl⟩
  | enter walkTime => exact ⟨rfl, rfl⟩
  | ride _ _ _ _ htrain _ ih =>
    rw [htrains _ _ htrain]
    exact ih
  | walk _ _ _ ih => exact ih

theorem isTrain_of_fetch {timetable : Timetable α} {parameters : RouterParameters α}
    {isTrain : Route α → Bool} (hnew : TransitRouter.new timetable parameters isTrain = .ok router)
    {test : Bool} (htest : ∀ route ∈ timetable.routes, isTrain route = test) (i : Nat)
    (train : Bool) (htrain : fetch router.isTrain i = .ok train) : train = test := by
  obtain ⟨-, rfl⟩ := eq_of_new hnew
  obtain ⟨route, hroute, rfl⟩ := Array.mem_map.mp (Array.mem_of_getElem? (fetch_eq_ok.mp htrain))
  exact htest route hroute

theorem withoutTrains_of_new {timetable : Timetable α} {parameters : RouterParameters α}
    {isTrain isTrain' : Route α → Bool} {first second : TransitRouter α}
    (hfirst : TransitRouter.new timetable parameters isTrain = .ok first)
    (hsecond : TransitRouter.new timetable parameters isTrain' = .ok second) :
    first.withoutTrains = second.withoutTrains := by
  obtain ⟨-, rfl⟩ := eq_of_new hfirst
  obtain ⟨-, rfl⟩ := eq_of_new hsecond
  simp only [withoutTrains, Array.map_map]
  rfl

end Tests

/-! ## The test for trains -/

/-- Two tests for trains lead to the same tree, up to what its arrivals state of trains. Time and
distance in trains are not negative and at most those in vehicles, unless a distance is undefined
because mileages are not finite. When all routes are trains they are the same, and when none are
they are 0. -/
theorem tree_of_trains [LawfulScalar α] [LawfulSum α] [LawfulSign α] {draft : TimetableDraft α}
    {timetable : Timetable α} {first second : TransitRouter α} (parameters : RouterParameters α)
    (isTrain isTrain' : Route α → Bool) (access : List (NearStop α)) (departure : α)
    (hdraft : draft.Drafted) (hbuild : draft.build = .ok timetable)
    (hfirst : TransitRouter.new timetable parameters isTrain = .ok first)
    (hsecond : TransitRouter.new timetable parameters isTrain' = .ok second) :
    TransitTree.withoutTrains <$> first.tree access departure =
      TransitTree.withoutTrains <$> second.tree access departure ∧
    (timetable.stopCount < 2 ^ 32 → timetable.routeCount < 2 ^ 32 →
      (∀ a ∈ access, timetable.contains a.stop = true) →
        ∃ tree, first.tree access departure = .ok tree) ∧
    ∀ tree, first.tree access departure = .ok tree →
      ∀ (stop : StopId) (label : Arrival α), tree.arrival? stop = some label →
        label.Shares ∧
        ((∀ route ∈ timetable.routes, ∀ metres ∈ route.mileage, Scalar.isFinite metres = true) →
          Scalar.IsNumber label.inVehicleDistance) ∧
        ((∀ route ∈ timetable.routes, isTrain route = true) →
          label.trainTime = label.inVehicleTime ∧
            label.trainDistance = label.inVehicleDistance) ∧
        ((∀ route ∈ timetable.routes, isTrain route = false) →
          label.trainTime = 0 ∧ label.trainDistance = 0) := by
  have honward := hdraft.onward_build hbuild
  have htimetable : first.timetable = timetable := by
    obtain ⟨-, rfl⟩ := eq_of_new hfirst
    rfl
  refine ⟨?_, fun hstops hroutes haccess => ?_, fun tree htree stop label hlabel => ?_⟩
  · rw [tree_withoutTrains, tree_withoutTrains, withoutTrains_of_new hfirst hsecond]
  · obtain ⟨hsound, -⟩ := sound_of_new (hdraft.sound_build hbuild hstops hroutes) hfirst
    exact exists_tree hsound (htimetable ▸ haccess) departure
  · subst htimetable
    have hknown := Array.mem_of_getElem? (Option.filter_eq_some_iff.mp hlabel).1
    obtain ⟨hpossible, -⟩ :=
      possible_of_tree honward.route_sound access departure tree htree label hknown
    exact ⟨hpossible.shares honward,
      fun hfinite => (hpossible.isMeasure_distance honward hfinite).isNumber,
      fun htrains => hpossible.eq_of_trains (isTrain_of_fetch hfirst htrains),
      fun htrains => hpossible.eq_zero_of_trains (isTrain_of_fetch hfirst htrains)⟩

end TransitRouter

theorem tree_of_trains_busAndTrain : ∃ draft timetable first second tree tree',
    busAndTrain = .ok draft ∧ draft.Drafted ∧ draft.build = .ok timetable ∧
      TransitRouter.new timetable .standard (fun route => decide (route.mode = .rail)) =
        .ok first ∧
      TransitRouter.new timetable .standard (fun _ => true) = .ok second ∧
      first.tree [⟨⟨0⟩, 45⟩] 0 = .ok tree ∧ second.tree [⟨⟨0⟩, 45⟩] 0 = .ok tree' ∧
      tree.withoutTrains = tree'.withoutTrains ∧
      ∀ (stop : StopId) (label : Arrival Float), tree.arrival? stop = some label →
        label.Shares ∧ Scalar.IsNumber label.inVehicleDistance := by
  have hdraft := drafted_busAndTrain _ rfl
  obtain ⟨hsame, hexists, hlabels⟩ := TransitRouter.tree_of_trains .standard
    (fun route => decide (route.mode = .rail)) (fun _ => true) [⟨⟨0⟩, 45⟩] 0 hdraft rfl rfl rfl
  obtain ⟨tree, htree⟩ := hexists (by decide) (by decide) (by decide)
  rw [htree, map_eq_pure_bind _ (TransitRouter.tree ..)] at hsame
  obtain ⟨tree', htree', hsame⟩ := bind_eq_ok.mp hsame.symm
  refine ⟨_, _, _, _, tree, tree', rfl, hdraft, rfl, rfl, rfl, htree, htree',
    (Except.ok.inj hsame).symm, fun stop label hlabel => ?_⟩
  obtain ⟨hshares, hnumber, -⟩ := hlabels tree htree stop label hlabel
  exact ⟨hshares, hnumber (by decide +kernel)⟩

end ZoneSkims
