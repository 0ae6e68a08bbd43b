import ZoneSkims.Proofs.Transit.Improvement
import ZoneSkims.Proofs.Transit.Journey

/-!
# Scans of routes

One scan goes through the calls of a route, from a position on, with the trip that is ridden. It
boards from the arrivals before the round and improves those of the round.

* `TransitRouter.Offers`: a ride that the arrivals before a round make possible.
* `TransitRouter.Ridden`: the arrivals after such a ride.
* `TransitRouter.rideRoute_spec`: a scan improves by such arrivals only, and leaves no stop later
  than an offered ride from one of the scanned positions would reach it.
-/

namespace ZoneSkims

variable {α : Type} [Scalar α]

namespace TransitRouter

/-- From a stop that was reached before the round, the leg takes the first trip that can be caught,
after a wait that is not too long. -/
structure Offers (router : TransitRouter α) (before : Array (Arrival α)) (here : Arrival α)
    (leg : Leg α) (source target : StopId) : Prop where
  known : before[source.index]? = some here
  isReached : here.isReached = true
  runs : leg.Runs router.timetable source target
  ready : leg.ready = here.time
  first : leg.route.earliestTrip leg.boarding here.time = .ok (some leg.trip)
  wait : 0 < here.legs → ¬ router.parameters.maxTransferWait < leg.departure - here.time

/-- The arrival at a stop after an offered ride. -/
def Ridden (router : TransitRouter α) (before : Array (Arrival α)) (stop : StopId)
    (label : Arrival α) : Prop :=
  ∃ here leg source train, router.Offers before here leg source stop ∧ leg.walk = none ∧
    fetch router.isTrain leg.id.index = .ok train ∧
      label = here.ride leg.arrival (leg.arrival - leg.departure) leg.metres train

/-- The trip was boarded before a position, at a stop where it was the first that could be caught.
-/
structure Rides (router : TransitRouter α) (route : Route α) (before : Array (Arrival α))
    (position : Nat) (b : Boarding α) : Prop where
  position_lt : b.position < position
  label : ∃ call, route.calls[b.position]? = some call ∧
    before[call.stop.index]? = some b.label
  isReached : b.label.isReached = true
  catches : ∃ time, route.departureAt b.trip b.position = .ok time ∧ b.label.time ≤ time ∧
    (0 < b.label.legs → ¬ router.parameters.maxTransferWait < time - b.label.time)
  first : route.earliestTrip b.position b.label.time = .ok (some b.trip)

variable {router : TransitRouter α} {id : RouteId} {route : Route α} {train : Bool}
  {before : Array (Arrival α)} {state : RoundState α} {position : Nat} {call : Call α}
  {b : Boarding α}

theorem Rides.succ (h : router.Rides route before position b) :
    router.Rides route before (position + 1) b :=
  { h with position_lt := Nat.lt_succ_of_lt h.position_lt }

section Scan

variable [LawfulScalar α] (htimetable : router.timetable.Sound)
  (hroute : router.timetable.route id = .ok route)
  (htrain : fetch router.isTrain id.index = .ok train)
  (hbefore : before.size = router.timetable.stopCount)

include htimetable hroute

/-! ## One call -/

include htrain in
/-- Leaving a trip is an improvement by a ride, or the stop is reached as early already. -/
theorem alight_spec (hsize : state.best.size = router.timetable.stopCount)
    (hdefined : Defined state.best) (hcall : route.calls[position]? = some call)
    (hb : router.Rides route before position b) :
    Returns (alight route train b position call.stop state) fun next =>
      RoundState.Improvements (router.Ridden before) state next ∧
        ∀ time, route.arrivalAt b.trip position = .ok time → Within next.best call.stop time := by
  have hsound := htimetable.route_sound hroute
  obtain ⟨source, hsource, hlabel⟩ := hb.label
  obtain ⟨departure, hdeparture, hle, hwait⟩ := hb.catches
  obtain ⟨start, source', hstart, hsource', rfl⟩ := Route.departureAt_eq_ok.mp hdeparture
  obtain ⟨known, hknown⟩ : ∃ known, state.best[call.stop.index]? = some known :=
    ⟨_, Array.getElem?_eq_getElem (hsize ▸ (hsound.call_sound_of_getElem? hcall).stop_lt)⟩
  have harrival : route.arrivalAt b.trip position = .ok (start + call.arrival) :=
    Route.arrivalAt_eq_ok.mpr ⟨start, call, hstart, hcall, rfl⟩
  have hmileage : ∀ {p : Nat} {c : Call α}, route.calls[p]? = some c →
      ∃ m, route.mileage[p]? = some m := fun hc =>
    ⟨_, Array.getElem?_eq_getElem (hsound.size_mileage ▸ (Array.getElem?_eq_some_iff.mp hc).1)⟩
  obtain ⟨last, hlast⟩ := hmileage hcall
  obtain ⟨first, hfirst⟩ := hmileage hsource
  have hmetres : route.metresBetween b.position position = .ok (last - first) :=
    Route.metresBetween_eq_ok.mpr ⟨last, first, hlast, hfirst, rfl⟩
  have hnumber : Scalar.IsNumber (start + call.arrival) :=
    Scalar.isNumber_right (Scalar.le_of_lt (hsound.neg_infinity_lt_arrivalAt harrival))
  simp only [alight, harrival, fetch_eq_ok.mpr hknown, hdeparture, hmetres, bind, Except.bind]
  split
  · next hlt =>
    refine Returns.pure ⟨.single (.improve hknown hlt ?_), fun time htime => ?_⟩
    · let leg : Leg α :=
        { id, route, trip := b.trip, boarding := b.position, alighting := position
          ready := b.label.time, departure := start + source'.departure
          arrival := start + call.arrival, metres := last - first, walk := none }
      have hruns : leg.Runs router.timetable source.stop call.stop :=
        ⟨hroute, ⟨source, hsource, rfl⟩, ⟨call, hcall, rfl⟩, hb.position_lt, hdeparture, harrival,
          hmetres, hle⟩
      exact ⟨b.label, leg, source.stop, train,
        ⟨hlabel, hb.isReached, hruns, rfl, hb.first, hwait⟩, rfl, htrain, rfl⟩
    · cases htime
      exact ⟨_, RoundState.getElem?_improve_self hknown, Scalar.le_refl hnumber⟩
  · next hlt =>
    refine Returns.pure ⟨.refl, fun time htime => ?_⟩
    cases htime
    exact ⟨known, hknown, Scalar.le_of_not_lt hnumber (hdefined _ _ hknown) hlt⟩

include hbefore in
/-- The trip is kept when no earlier one is offered, and otherwise the offered one is boarded. -/
theorem board_cases {boarded : Option (Boarding α)} (hcall : route.calls[position]? = some call) :
    Returns (router.board route before position call.stop boarded) fun next =>
      (next = boarded ∧ ∀ here leg target, router.Offers before here leg call.stop target →
        leg.route = route → leg.boarding = position → ∃ b, boarded = some b ∧ b.trip ≤ leg.trip) ∨
      ∃ b, next = some b ∧ router.Rides route before (position + 1) b ∧
        (∀ b', boarded = some b' → b.trip ≤ b'.trip) ∧
          ∀ here leg target, router.Offers before here leg call.stop target →
            leg.route = route → leg.boarding = position → b.trip = leg.trip := by
  have hsound := htimetable.route_sound hroute
  obtain ⟨here, hhere⟩ : ∃ here, before[call.stop.index]? = some here :=
    ⟨_, Array.getElem?_eq_getElem (hbefore ▸ (hsound.call_sound_of_getElem? hcall).stop_lt)⟩
  simp only [board, fetch_eq_ok.mpr hhere, bind, Except.bind, pure, Except.pure]
  cases hreached : here.isReached with
  | false =>
    refine Returns.pure (.inl ⟨rfl, fun here' leg target hoffer _ _ => ?_⟩)
    cases hhere.symm.trans hoffer.known
    rw [hoffer.isReached] at hreached
    cases hreached
  | true =>
    obtain ⟨best, hbest, hfound, -⟩ :=
      hsound.earliestTrip (Array.getElem?_eq_some_iff.mp hcall).1
        (Scalar.isNumber_of_isFinite hreached)
    -- All offers at the position take the trip that is found.
    have hoffered : ∀ {here' leg target}, router.Offers before here' leg call.stop target →
        leg.route = route → leg.boarding = position → best = some leg.trip ∧ here' = here := by
      intro here' leg target hoffer hr hp
      cases hhere.symm.trans hoffer.known
      have hfirst := hoffer.first
      rw [hr, hp, hbest] at hfirst
      cases hfirst
      exact ⟨rfl, rfl⟩
    simp only [hbest, Bool.not_true, Bool.false_eq_true, if_false]
    cases best with
    | none =>
      refine Returns.pure (.inl ⟨rfl, fun here' leg target hoffer hr hp => ?_⟩)
      cases (hoffered hoffer hr hp).1
    | some trip =>
      obtain ⟨departure, hdeparture, hcatch⟩ := hfound trip rfl
      simp only [hdeparture]
      split
      · next hany =>
        obtain ⟨b, hb, hle⟩ := (Option.any_eq_true _ _).mp hany
        refine Returns.pure (.inl ⟨rfl, fun here' leg target hoffer hr hp => ⟨b, hb, ?_⟩⟩)
        cases (hoffered hoffer hr hp).1
        exact of_decide_eq_true hle
      · next hany =>
        split
        · next hlong =>
          simp only [Bool.and_eq_true, decide_eq_true_eq] at hlong
          refine Returns.pure (.inl ⟨rfl, fun here' leg target hoffer hr hp => ?_⟩)
          obtain ⟨htrip, rfl⟩ := hoffered hoffer hr hp
          cases htrip
          have htime := hoffer.runs.departure
          rw [hr, hp, hdeparture] at htime
          cases htime
          exact absurd hlong.2 (hoffer.wait hlong.1)
        · next hshort =>
          simp only [Bool.and_eq_true, decide_eq_true_eq, not_and] at hshort
          refine Returns.pure (.inr ⟨_, rfl, ?_, fun b' hb' => ?_, fun _ leg _ hoffer hr hp => ?_⟩)
          · exact ⟨Nat.lt_succ_self _, ⟨call, hcall, hhere⟩, hreached,
              ⟨departure, hdeparture, hcatch, hshort⟩, hbest⟩
          · rw [hb', Option.any_some, decide_eq_true_eq] at hany
            exact Nat.le_of_not_le hany
          · cases (hoffered hoffer hr hp).1
            rfl

include hbefore in
/-- The trip after a position is not later than the one before it, nor than one that is offered at
the position. -/
theorem board_spec {boarded : Option (Boarding α)} (hcall : route.calls[position]? = some call)
    (hboarded : ∀ b, boarded = some b → router.Rides route before position b) :
    Returns (router.board route before position call.stop boarded) fun next =>
      (∀ b, next = some b → router.Rides route before (position + 1) b) ∧
      (∀ b, boarded = some b → ∃ b', next = some b' ∧ b'.trip ≤ b.trip) ∧
      ∀ here leg target, router.Offers before here leg call.stop target → leg.route = route →
        leg.boarding = position → ∃ b', next = some b' ∧ b'.trip ≤ leg.trip := by
  refine (board_cases htimetable hroute hbefore hcall).mono fun next hnext => ?_
  rcases hnext with ⟨rfl, hoffered⟩ | ⟨b, rfl, hb, hearlier, hoffered⟩
  · exact ⟨fun b hb => (hboarded b hb).succ, fun b hb => ⟨b, hb, Nat.le_refl _⟩, hoffered⟩
  · refine ⟨fun b' hb' => ?_, fun b' hb' => ⟨b, rfl, hearlier b' hb'⟩, fun _ _ _ hoffer hr hp => ?_⟩
    · cases hb'
      exact hb
    · exact ⟨b, rfl, Nat.le_of_eq (hoffered _ _ _ hoffer hr hp)⟩

/-! ## All calls from a position on -/

omit [LawfulScalar α] htimetable hroute in
/-- At a call the trip so far is left first, and then an earlier one is boarded. -/
theorem rideCalls_cons {boarded : Option (Boarding α)} {calls : List (Call α × Nat)} :
    router.rideCalls route train before ((call, position) :: calls) boarded state =
      (match boarded with
        | some b => alight route train b position call.stop state
        | none => pure state) >>= fun left =>
          router.board route before position call.stop boarded >>= fun next =>
            router.rideCalls route train before calls next left := by
  cases boarded <;> rfl

omit [Scalar α] [LawfulScalar α] htimetable hroute in
/-- The calls from a position on begin with the one at the position. -/
theorem calls_eq_drop {calls : List (Call α × Nat)} {start : Nat}
    (h : (call, position) :: calls = route.calls.toList.zipIdx.drop start) :
    position = start ∧ route.calls[start]? = some call ∧
      calls = route.calls.toList.zipIdx.drop (start + 1) := by
  have hlt : start < route.calls.toList.zipIdx.length := by
    refine Nat.lt_of_not_le fun hge => ?_
    rw [List.drop_eq_nil_of_le hge] at h
    cases h
  rw [List.drop_eq_getElem_cons hlt, List.getElem_zipIdx, Nat.zero_add] at h
  obtain ⟨hentry, hrest⟩ := List.cons.inj h
  obtain ⟨rfl, rfl⟩ := Prod.mk.inj hentry
  rw [List.length_zipIdx, Array.length_toList] at hlt
  exact ⟨rfl, by simp [hlt], hrest⟩

include htrain hbefore in
/-- The scan improves by rides. What the trip at its start would reach, and what is offered on the
way, is reached no later after it. -/
theorem rideCalls_spec (calls : List (Call α × Nat)) :
    ∀ {position : Nat} {boarded : Option (Boarding α)} {state : RoundState α},
      calls = route.calls.toList.zipIdx.drop position →
      state.best.size = router.timetable.stopCount → Defined state.best →
      (∀ b, boarded = some b → router.Rides route before position b) →
      Returns (router.rideCalls route train before calls boarded state) fun next =>
        RoundState.Improvements (router.Ridden before) state next ∧
        (∀ b, boarded = some b → ∀ later call time, position ≤ later →
          route.calls[later]? = some call → route.arrivalAt b.trip later = .ok time →
            Within next.best call.stop time) ∧
        ∀ here leg source target, router.Offers before here leg source target →
          leg.route = route → position ≤ leg.boarding → Within next.best target leg.arrival := by
  have hsound := htimetable.route_sound hroute
  induction calls with
  | nil =>
    intro position boarded state hcalls _ _ _
    have hend : route.calls.size ≤ position := by
      simpa using List.drop_eq_nil_iff.mp hcalls.symm
    refine Returns.pure ⟨.refl, fun b _ later call time hle hcall _ => ?_,
      fun here leg source target hoffer hr hle => ?_⟩
    · have := (Array.getElem?_eq_some_iff.mp hcall).1
      omega
    · obtain ⟨call, hcall, -⟩ := hoffer.runs.boards
      rw [hr] at hcall
      have := (Array.getElem?_eq_some_iff.mp hcall).1
      omega
  | cons entry calls ih =>
    intro position boarded state hcalls hsize hdefined hboarded
    obtain ⟨first, position⟩ := entry
    obtain ⟨rfl, hcall, hrest⟩ := calls_eq_drop hcalls
    rw [rideCalls_cons]
    have halight : Returns (match boarded with
        | some b => alight route train b position first.stop state
        | none => pure state) fun next =>
          RoundState.Improvements (router.Ridden before) state next ∧
            ∀ b, boarded = some b → ∀ time, route.arrivalAt b.trip position = .ok time →
              Within next.best first.stop time := by
      cases boarded with
      | none => exact Returns.pure ⟨.refl, fun b hb => by cases hb⟩
      | some b =>
        refine (alight_spec htimetable hroute htrain hsize hdefined hcall (hboarded b rfl)).mono ?_
        rintro next ⟨hnext, hwithin⟩
        exact ⟨hnext, fun b' hb' => by cases hb'; exact hwithin⟩
    refine Returns.bind halight fun left ⟨hleft, hnow⟩ => ?_
    refine Returns.bind (board_spec htimetable hroute hbefore hcall hboarded) fun next hnext => ?_
    obtain ⟨hrides, hearlier, hoffered⟩ := hnext
    refine (ih hrest (hleft.size.trans hsize) (hleft.defined hdefined) hrides).mono ?_
    rintro last ⟨hlast, hlater, hoffers⟩
    have hcover : ∀ {trip : Nat} {b : Boarding α}, next = some b → b.trip ≤ trip →
        ∀ later call time, position + 1 ≤ later → route.calls[later]? = some call →
          route.arrivalAt trip later = .ok time → Within last.best call.stop time := by
      intro trip b hb hle later call time hlate hcall' htime
      obtain ⟨time', htime', hle'⟩ := hsound.exists_arrivalAt_le htime hle
      obtain ⟨label, hlabel, hlabel'⟩ := hlater b hb later call time' hlate hcall' htime'
      exact ⟨label, hlabel, Scalar.le_trans hlabel' hle'⟩
    refine ⟨hleft.trans hlast, fun b hb later call time hle hcall' htime => ?_,
      fun here leg source target hoffer hr hle => ?_⟩
    · rcases Nat.eq_or_lt_of_le hle with rfl | hlt'
      · cases hcall.symm.trans hcall'
        exact hlast.within (hnow b hb time htime)
      · obtain ⟨b', hb', hle'⟩ := hearlier b hb
        exact hcover hb' hle' later call time hlt' hcall' htime
    · rcases Nat.eq_or_lt_of_le hle with heq | hlt'
      · obtain ⟨call, hboards, rfl⟩ := hoffer.runs.boards
        obtain ⟨call', halights, rfl⟩ := hoffer.runs.alights
        have hforward := hoffer.runs.forward
        have harrival := hoffer.runs.arrival
        rw [hr] at hboards halights harrival
        rw [← heq] at hboards
        cases hcall.symm.trans hboards
        obtain ⟨b', hb', hle'⟩ := hoffered here leg _ hoffer hr heq.symm
        exact hcover hb' hle' leg.alighting _ _ (by omega) halights harrival
      · exact hoffers here leg source target hoffer hr hlt'

end Scan

/-- A scan of a queued route improves by rides, and what is offered on the route from the queued
position on is reached no later after it. -/
theorem rideRoute_spec [LawfulScalar α] (htimetable : router.timetable.Sound)
    (hroute : router.timetable.route id = .ok route)
    (htrain : fetch router.isTrain id.index = .ok train)
    (hbefore : before.size = router.timetable.stopCount)
    (hsize : state.best.size = router.timetable.stopCount) (hdefined : Defined state.best) :
    Returns (router.rideRoute before state (id, position)) fun next =>
      RoundState.Improvements (router.Ridden before) state next ∧
      ∀ here leg source target, router.Offers before here leg source target → leg.id = id →
        position ≤ leg.boarding → Within next.best target leg.arrival := by
  simp only [rideRoute, hroute, htrain, bind, Except.bind]
  refine (rideCalls_spec htimetable hroute htrain hbefore _ rfl hsize hdefined
    fun b hb => by cases hb).mono ?_
  rintro next ⟨hnext, -, hoffers⟩
  refine ⟨hnext, fun here leg source target hoffer hid hle => ?_⟩
  have hleg := hoffer.runs.route
  rw [hid, hroute] at hleg
  exact hoffers here leg source target hoffer (Except.ok.inj hleg).symm hle

end TransitRouter

end ZoneSkims
