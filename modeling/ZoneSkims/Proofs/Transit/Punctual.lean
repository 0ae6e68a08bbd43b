import ZoneSkims.Proofs.Scalar.Return
import ZoneSkims.Proofs.Transit.AccessOrder

/-!
# Departures that catch their trips

Each departure of a window is the time of a trip less the walk to its stop, and the search adds the
walk again. So it is to find that trip at the latest. In double precision the two steps are rounded,
and the arrival at the stop can come out later than the trip that it was made for, which is then
missed. This is excluded when the departure was not rounded up, and for timetables in whole seconds
or other ticks of a clock.

* `TransitRouter.filter_departure`: there is one tree for each departure that catches a trip.
* `TransitRouter.walked_within`: no stop is reached later than by the walk to it.
* `TransitRouter.candidate_catches_trip`: the main result.
* `missed_by_rounding`: a trip that is missed.
-/

namespace ZoneSkims

variable {α : Type} [Scalar α] [LawfulScalar α]

namespace TransitRouter

variable {router : TransitRouter α} {access : List (NearStop α)}

/-- Trees with ascending departures have no other one at the departure of one of them. -/
theorem filter_departure [LawfulSorting α] {trees : List (TransitTree α)}
    (hascend : (trees.map TransitTree.departure).Pairwise (· < ·)) {tree : TransitTree α}
    (htree : tree ∈ trees) {time : α} (htime : (tree.departure == time) = true) :
    trees.filter (fun tree => tree.departure == time) = [tree] := by
  obtain ⟨before, after, rfl⟩ := List.append_of_mem htree
  rw [List.map_append, List.map_cons, List.pairwise_append, List.pairwise_cons] at hascend
  obtain ⟨-, ⟨hafter, -⟩, hbefore⟩ := hascend
  obtain ⟨hle, hge⟩ := LawfulSorting.beq_iff.mp htime
  have hnone (other : TransitTree α)
      (hother : other.departure < tree.departure ∨ tree.departure < other.departure) :
      ¬ (other.departure == time) = true := by
    intro hsame
    obtain ⟨hle', hge'⟩ := LawfulSorting.beq_iff.mp hsame
    rcases hother with hlt | hlt
    · exact Scalar.not_lt_of_le (Scalar.le_trans hle hge') hlt
    · exact Scalar.not_lt_of_le (Scalar.le_trans hle' hge) hlt
  have hearlier : before.filter (fun tree => tree.departure == time) = [] :=
    List.filter_eq_nil_iff.mpr fun other hother =>
      hnone other (.inl (hbefore _ (List.mem_map_of_mem hother) _ List.mem_cons_self))
  have hlater : after.filter (fun tree => tree.departure == time) = [] :=
    List.filter_eq_nil_iff.mpr fun other hother =>
      hnone other (.inr (hafter _ (List.mem_map_of_mem hother)))
  rw [List.filter_append, List.filter_cons, if_pos htime, hearlier, hlater, List.nil_append]

/-- No stop near the place of departure is reached later than by the walk to it. -/
theorem walked_within {isTrain : Route α → Bool} (hrouter : router.Sound isTrain)
    (haccess : ∀ a ∈ access, router.timetable.contains a.stop = true) {departure : α}
    {tree : TransitTree α} (htree : router.tree access departure = .ok tree) {a : NearStop α}
    (ha : a ∈ access) (hnumber : Scalar.IsNumber (departure + a.walkTime)) :
    Within tree.arrivals a.stop (departure + a.walkTime) := by
  obtain ⟨tree', htree', marked, hwithin, -⟩ := tree_spec hrouter haccess
    (I := fun _ _ best => Within best a.stop (departure + a.walkTime))
    (fun _ _ hstart => hstart a ha hnumber)
    fun _ _ _ _ _ hbefore _ hadvances => hadvances.within hbefore
  obtain rfl := Except.ok.inj (htree.symm.trans htree')
  exact hwithin

end TransitRouter

/-- A time that is equal to a difference that comes back is not above the minuend either when the
walk is added. -/
theorem add_le_of_beq {time d w : Float} (hfinite : Scalar.isFinite (d - w) = true)
    (hequal : (time == d - w) = true) (h : ComesBack d w) : time + w ≤ d := by
  have hw := (isFinite_of_isFinite_sub hfinite).2
  have hle := (LawfulSorting.beq_iff.mp hequal).1
  exact Scalar.le_trans (LawfulScalar.add_le_add_right hw hle) (float_sub_add_le hfinite h)

/-- For every trip that a departure of the window is made for, there is exactly one tree at that
departure, and in it the stop is reached no later than by the walk to it. When the departure comes
back, this arrival is not later than the trip, and so no later trip is the first one to catch. -/
theorem TransitRouter.candidate_catches_trip {draft : TimetableDraft Float}
    {timetable : Timetable Float} {router : TransitRouter Float}
    (parameters : RouterParameters Float) (isTrain : Route Float → Bool) (hdraft : draft.Drafted)
    (hbuild : draft.build = .ok timetable) (hstops : timetable.stopCount < 2 ^ 32 - 1)
    (hroutes : timetable.routeCount < 2 ^ 32 - 1)
    (hnew : TransitRouter.new timetable parameters isTrain = .ok router)
    {access : List (NearStop Float)} (haccess : ∀ a ∈ access, timetable.contains a.stop = true)
    {window : Window Float} (hvalid : window.isValid = true) {a : NearStop Float} (ha : a ∈ access)
    {served : List (RouteId × Nat)} (hserved : timetable.servedAt a.stop = .ok served)
    {id : RouteId} {position : Nat} (hposition : (id, position) ∈ served) {route : Route Float}
    (hroute : timetable.route id = .ok route) {trip : Nat} {departure : Float}
    (hdeparture : route.departureAt trip position = .ok departure)
    (hwindow : window.contains (departure - a.walkTime) = true) :
    ∃ trees tree, router.trees access window = .ok trees ∧
      trees.filter (fun tree => tree.departure == departure - a.walkTime) = [tree] ∧
      Within tree.arrivals a.stop (tree.departure + a.walkTime) ∧
      (ComesBack departure a.walkTime → tree.departure + a.walkTime ≤ departure ∧
        ∃ first, route.earliestTrip position (tree.departure + a.walkTime) = .ok (some first) ∧
          first ≤ trip) := by
  have htimetable := hdraft.sound_build hbuild (by omega) (by omega)
  obtain ⟨hrouter, -, rfl, -⟩ := sound_of_new htimetable hnew
  obtain ⟨_, hserved', hspec⟩ := htimetable.servedAt (haccess a ha)
  obtain rfl := Except.ok.inj (hserved.symm.trans hserved')
  obtain ⟨_, call, hroute', hcall, hstop⟩ := (hspec id position).mp hposition
  obtain rfl := Except.ok.inj (hroute.symm.trans hroute')
  obtain ⟨trees, htrees, hascend, hmade, hcomplete⟩ := trees_ascend hrouter haccess window
  obtain ⟨tree, htree, hequal⟩ := hcomplete (departure - a.walkTime)
    ⟨a, ha, id, route, position, call, trip, departure, hroute, hcall, hstop, hdeparture, rfl⟩
    hwindow
  obtain ⟨hwithin, hown⟩ := hmade tree htree
  have hfinite := Window.isFinite_of_contains hvalid hwindow
  have hwalk := (isFinite_of_isFinite_sub hfinite).2
  have hnumber : Scalar.IsNumber (tree.departure + a.walkTime) :=
    float_isNumber_add (float_isNumber_of_isFinite (Window.isFinite_of_contains hvalid hwithin))
      hwalk
  refine ⟨trees, tree, htrees, filter_departure hascend htree hequal,
    walked_within hrouter haccess hown ha hnumber, fun hback => ?_⟩
  have hle := add_le_of_beq hfinite hequal hback
  obtain ⟨best, hbest, -, hfirst⟩ := (htimetable.route_sound hroute).earliestTrip
    (Array.getElem?_eq_some_iff.mp hcall).1 hnumber
  obtain ⟨first, rfl, hearly⟩ := hfirst trip departure hdeparture hle
  exact ⟨hle, first, hbest, hearly⟩

/-! ## A trip that is missed -/

/-- A bus that leaves at nine tenths of a second, and again at 500 seconds. -/
def oddBus : Except (TransitError Float) (TimetableDraft Float) := do
  let draft := (TimetableDraft.empty.addStop ⟨0, 0⟩).2
  let draft := (draft.addStop ⟨1000, 0⟩).2
  let (_, draft) ← draft.addRoute "A" .bus
    [⟨⟨0⟩, 0, 0, none⟩, ⟨⟨1⟩, 60, 60, some 1000⟩] [0.9, 500]
  return draft

/-- The route of the bus. -/
def oddRoute : Route Float :=
  { line := "A", mode := .bus
    calls := #[⟨⟨0⟩, 0, 0, none⟩, ⟨⟨1⟩, 60, 60, some 1000⟩]
    departures := #[0.9, 500], mileage := #[0, 0 + 1000] }

/-- The timetable of the bus. -/
def oddTimetable : Timetable Float :=
  { stops := #[⟨0, 0⟩, ⟨1000, 0⟩], routes := #[oddRoute]
    serving := #[#[(⟨0⟩, 0)], #[(⟨0⟩, 1)]], transfers := #[#[], #[]] }

def oddRouter : TransitRouter Float :=
  { timetable := oddTimetable, parameters := .standard, isTrain := #[false] }

theorem drafted_oddBus :
    ∃ draft : TimetableDraft Float, draft.Drafted ∧ draft.build = .ok oddTimetable := by
  have hdrafted : Ok oddBus TimetableDraft.Drafted := by
    have hstops := TimetableDraft.Drafted.empty.addStop (α := Float) ⟨0, 0⟩ |>.addStop ⟨1000, 0⟩
    exact Ok.bind (Q := fun next => next.2.Drafted) (fun _ h => hstops.addRoute h)
      fun _ h => Ok.pure h
  refine ⟨_, hdrafted _ rfl, ?_⟩
  have hsorted : ([0.9, 500] : List Float).mergeSort Scalar.orderedLe = [0.9, 500] :=
    List.mergeSort_of_pairwise (by decide +kernel)
  rw [hsorted]
  rfl

theorem new_oddBus : TransitRouter.new oddTimetable .standard (fun _ => false) = .ok oddRouter :=
  TransitRouter.new_eq (by decide +kernel) (by simp [oddTimetable])

/-- The stop of the bus is three tenths of a second away. -/
def nearOddBus : List (NearStop Float) := [⟨⟨0⟩, 0.3⟩]

theorem servedAt_oddBus : oddTimetable.servedAt ⟨0⟩ = .ok [(⟨0⟩, 0)] :=
  rfl

theorem contains_nearOddBus : ∀ a ∈ nearOddBus, oddTimetable.contains a.stop = true := by
  decide

/-- The second trip, which leaves at a whole second, is caught. -/
theorem candidate_catches_trip_oddBus : ∃ draft trees tree,
    (draft : TimetableDraft Float).Drafted ∧ draft.build = .ok oddTimetable ∧
      oddTimetable.stopCount < 2 ^ 32 - 1 ∧ oddTimetable.routeCount < 2 ^ 32 - 1 ∧
      TransitRouter.new oddTimetable .standard (fun _ => false) = .ok oddRouter ∧
      (∀ a ∈ nearOddBus, oddTimetable.contains a.stop = true) ∧
      (⟨0, 1000⟩ : Window Float).isValid = true ∧ ⟨⟨0⟩, 0.3⟩ ∈ nearOddBus ∧
      oddTimetable.servedAt ⟨0⟩ = .ok [(⟨0⟩, 0)] ∧ oddTimetable.route ⟨0⟩ = .ok oddRoute ∧
      oddRoute.departureAt 1 0 = .ok 500 ∧
      (⟨0, 1000⟩ : Window Float).contains (500 - 0.3) = true ∧ ComesBack 500 0.3 ∧
      oddRouter.trees nearOddBus ⟨0, 1000⟩ = .ok trees ∧
      trees.filter (fun tree => tree.departure == 500 - 0.3) = [tree] ∧
      tree.departure + 0.3 ≤ 500 := by
  obtain ⟨draft, hdraft, hbuild⟩ := drafted_oddBus
  have hstops : oddTimetable.stopCount < 2 ^ 32 - 1 := by decide
  have hroutes : oddTimetable.routeCount < 2 ^ 32 - 1 := by decide
  have hvalid : (⟨0, 1000⟩ : Window Float).isValid = true := by decide +kernel
  have hnear : (⟨⟨0⟩, 0.3⟩ : NearStop Float) ∈ nearOddBus := List.mem_cons_self
  have hroute : oddTimetable.route ⟨0⟩ = .ok oddRoute := rfl
  have hdeparture : oddRoute.departureAt 1 0 = .ok 500 :=
    Route.departureAt_eq_ok.mpr ⟨500, ⟨⟨0⟩, 0, 0, none⟩, rfl, rfl, by decide +kernel⟩
  have hwindow : (⟨0, 1000⟩ : Window Float).contains (500 - 0.3) = true := by decide +kernel
  have hback : ComesBack 500 0.3 := by
    have hseconds : (500 : Float) = Scalar.ofNat 500 := by decide +kernel
    rw [hseconds]
    exact .inr ⟨_, clockTimes_ofNat (by decide) (by decide +kernel) (by decide +kernel)⟩
  obtain ⟨trees, tree, htrees, honly, -, hcaught⟩ := TransitRouter.candidate_catches_trip .standard
    (fun _ => false) hdraft hbuild hstops hroutes new_oddBus contains_nearOddBus hvalid hnear
    servedAt_oddBus List.mem_cons_self hroute hdeparture hwindow
  exact ⟨draft, trees, tree, hdraft, hbuild, hstops, hroutes, new_oddBus, contains_nearOddBus,
    hvalid, hnear, servedAt_oddBus, hroute, hdeparture, hwindow, hback, htrees, honly,
    (hcaught hback).1⟩

/-- In a window that ends before the second trip, the only departure is the one for the first. -/
theorem departures_oddBus : oddRouter.departures nearOddBus ⟨0, 100⟩ = .ok [0.9 - 0.3] := by
  have htimes : (nearOddBus.mapM fun a => do
      let served ← oddRouter.timetable.servedAt a.stop
      return (← served.mapM (oddRouter.catchTimes ⟨0, 100⟩ a)).flatten) = .ok [[0.9 - 0.3]] := rfl
  refine bind_eq_ok.mpr ⟨_, htimes, ?_⟩
  rw [List.flatten_singleton, List.mergeSort_singleton]
  rfl

/-- Leaving nine tenths of a second less the walk comes to the stop too late for the first trip, and
the tree at that departure takes the second one. -/
theorem missed_by_rounding : ∃ draft tree,
    (draft : TimetableDraft Float).Drafted ∧ draft.build = .ok oddTimetable ∧
      TransitRouter.new oddTimetable .standard (fun _ => false) = .ok oddRouter ∧
      (⟨0, 100⟩ : Window Float).isValid = true ∧
      oddTimetable.servedAt ⟨0⟩ = .ok [(⟨0⟩, 0)] ∧ oddTimetable.route ⟨0⟩ = .ok oddRoute ∧
      oddRoute.departureAt 0 0 = .ok 0.9 ∧
      (⟨0, 100⟩ : Window Float).contains (0.9 - 0.3) = true ∧
      oddRouter.trees nearOddBus ⟨0, 100⟩ = .ok [tree] ∧ tree.departure = 0.9 - 0.3 ∧
      ¬ tree.departure + 0.3 ≤ 0.9 ∧
      oddRoute.earliestTrip 0 (tree.departure + 0.3) = .ok (some 1) ∧
      (tree.arrival? ⟨1⟩).map Arrival.time = some 560 := by
  obtain ⟨draft, hdraft, hbuild⟩ := drafted_oddBus
  have hdeparture : oddRoute.departureAt 0 0 = .ok 0.9 :=
    Route.departureAt_eq_ok.mpr ⟨0.9, ⟨⟨0⟩, 0, 0, none⟩, rfl, rfl, by decide +kernel⟩
  have hwindow : (⟨0, 100⟩ : Window Float).contains (0.9 - 0.3) = true := by decide +kernel
  have htree : ((oddRouter.tree nearOddBus (0.9 - 0.3)).toOption.any fun tree =>
      decide (tree.departure = 0.9 - 0.3 ∧
        (tree.arrival? ⟨1⟩).map Arrival.time = some 560)) = true := by
    decide +kernel
  obtain ⟨tree, htree, hleave, harrive⟩ := exists_of_any htree
  have htrees : oddRouter.trees nearOddBus ⟨0, 100⟩ = .ok [tree] := by
    refine bind_eq_ok.mpr ⟨_, departures_oddBus, ?_⟩
    rw [List.mapM_cons, htree]
    rfl
  have hfirst : oddRoute.earliestTrip 0 (0.9 - 0.3 + 0.3) = .ok (some 1) := by decide +kernel
  refine ⟨draft, tree, hdraft, hbuild, new_oddBus, by decide +kernel, servedAt_oddBus, rfl,
    hdeparture, hwindow, htrees, hleave, ?_⟩
  rw [hleave]
  exact ⟨by decide +kernel, hfirst, harrive⟩

end ZoneSkims
