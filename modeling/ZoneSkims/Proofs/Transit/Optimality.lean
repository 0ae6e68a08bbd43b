import ZoneSkims.Proofs.Transit.Course
import ZoneSkims.Proofs.Transit.Soundness

/-!
# No journey is earlier

With no limit on waits, no journey that changes at stops, without walks between its rides, is
earlier than the arrival that a search reports. Round `k` accounts for the journeys of `k` rides,
although it goes on only from the stops that the round before has improved: what the other stops
offer was taken into account when they were improved for the last time.

* `TransitRouter.exists_offer`: the first trip that can be caught is as good as any later one.
* `TransitRouter.Complete`: the invariant of the rounds.
* `TransitRouter.Complete.succ`: a round keeps it.
* `TransitRouter.tree_optimal`: arrivals are minimal, and reached with the fewest rides.
* `TransitRouter.not_tree_optimal`: this fails when a walk to a stop is so long before all times
  that the arrival there overflows.
-/

namespace ZoneSkims

variable {α : Type} [Scalar α] [LawfulScalar α]

namespace TransitRouter

variable {router : TransitRouter α} {isTrain : Route α → Bool} {access : List (NearStop α)}
  {departure : α} {before best : Array (Arrival α)} {marked : List StopId} {done : Nat}

/-! ## Offers -/

/-- Whoever can take a trip from a stop that was reached before is offered a ride that is no later,
unless the wait for the first one is too long. -/
theorem exists_offer_of_wait (htimetable : router.timetable.Sound) {here : Arrival α} {leg : Leg α}
    {source target : StopId} (hknown : before[source.index]? = some here)
    (hreached : here.isReached = true) (hruns : leg.Runs router.timetable source target)
    (hle : here.time ≤ leg.departure)
    (hwait : ∀ first departure, leg.route.earliestTrip leg.boarding here.time = .ok (some first) →
      leg.route.departureAt first leg.boarding = .ok departure → 0 < here.legs →
        ¬ router.parameters.maxTransferWait < departure - here.time) :
    ∃ leg', router.Offers before here leg' source target ∧ leg'.arrival ≤ leg.arrival := by
  have hroute := htimetable.route_sound hruns.route
  obtain ⟨call, hcall, hsource⟩ := hruns.boards
  obtain ⟨best, hbest, hcatch, hfirst⟩ := hroute.earliestTrip
    (Array.getElem?_eq_some_iff.mp hcall).1 (Scalar.isNumber_of_isFinite hreached)
  obtain ⟨first, rfl, hearlier⟩ := hfirst leg.trip leg.departure hruns.departure hle
  obtain ⟨departure, hdeparture, hready⟩ := hcatch first rfl
  obtain ⟨arrival, harrival, hle'⟩ := hroute.exists_arrivalAt_le hruns.arrival hearlier
  let leg' : Leg α :=
    { leg with trip := first, ready := here.time, departure, arrival, walk := none }
  have hruns' : leg'.Runs router.timetable source target :=
    ⟨hruns.route, ⟨call, hcall, hsource⟩, hruns.alights, hruns.forward, hdeparture, harrival,
      hruns.metres, hready⟩
  exact ⟨leg', ⟨hknown, hreached, hruns', rfl, hbest, hwait first departure hbest hdeparture⟩, hle'⟩

/-- With no limit on waits the ride is offered in any case. -/
theorem exists_offer (htimetable : router.timetable.Sound)
    (hpatient : router.parameters.maxTransferWait = Scalar.infinity) {here : Arrival α}
    {leg : Leg α} {source target : StopId} (hknown : before[source.index]? = some here)
    (hreached : here.isReached = true) (hruns : leg.Runs router.timetable source target)
    (hle : here.time ≤ leg.departure) :
    ∃ leg', router.Offers before here leg' source target ∧ leg'.arrival ≤ leg.arrival := by
  refine exists_offer_of_wait htimetable hknown hreached hruns hle fun _ _ _ _ _ => ?_
  rw [hpatient]
  exact Scalar.not_infinity_lt _

/-- No stop is reached after infinity. -/
theorem within_of_infinity_le (hfits : router.Fits marked best) {stop : StopId} {time : α}
    (hstop : router.timetable.contains stop = true) (htime : Scalar.infinity ≤ time) :
    Within best stop time := by
  have hlt := Timetable.contains_iff.mp hstop
  rw [← hfits.size] at hlt
  have hknown := Array.getElem?_eq_getElem hlt
  exact ⟨_, hknown, Scalar.le_trans (LawfulScalar.le_infinity (hfits.defined _ _ hknown)) htime⟩

/-- A ride from a stop that was reached in time leads to a stop that is reached in time, when this
holds of what the first stop offers. -/
theorem within_of_runs (htimetable : router.timetable.Sound)
    (hpatient : router.parameters.maxTransferWait = Scalar.infinity)
    (hfits : router.Fits marked best)
    (habove : ∀ (stop : StopId) (label : Arrival α), before[stop.index]? = some label →
      -Scalar.infinity < label.time)
    {leg : Leg α} {source target : StopId} (hsource : Within before source leg.ready)
    (hruns : leg.Runs router.timetable source target)
    (hoffers : ∀ here leg', router.Offers before here leg' source target →
      Within best target leg'.arrival) :
    Within best target leg.arrival := by
  obtain ⟨here, hknown, hle⟩ := hsource
  have hcatch := Scalar.le_trans hle hruns.catches
  by_cases hlt : leg.departure < Scalar.infinity
  · have hreached : here.isReached = true :=
      LawfulScalar.isFinite_iff.mpr ⟨habove _ _ hknown, Scalar.lt_of_le_of_lt hcatch hlt⟩
    obtain ⟨leg', hoffer, hle'⟩ := exists_offer htimetable hpatient hknown hreached hruns hcatch
    obtain ⟨label, hlabel, hlabel'⟩ := hoffers here leg' hoffer
    exact ⟨label, hlabel, Scalar.le_trans hlabel' hle'⟩
  · -- A trip that leaves at infinity arrives there.
    have hinfinity :=
      Scalar.le_of_not_lt (Scalar.isNumber_right hcatch) Scalar.isNumber_infinity hlt
    exact within_of_infinity_le hfits (hruns.target_contained htimetable)
      (Scalar.le_trans hinfinity (hruns.departure_le_arrival htimetable))

theorem neg_infinity_lt_of_ridden (htimetable : router.timetable.Sound) {stop : StopId}
    {label : Arrival α} (h : router.Ridden before stop label) : -Scalar.infinity < label.time := by
  obtain ⟨here, leg, source, train, hoffer, -, -, rfl⟩ := h
  exact (htimetable.route_sound hoffer.runs.route).neg_infinity_lt_arrivalAt hoffer.runs.arrival

/-! ## The invariant -/

/-- After `done` rounds, all journeys of so many rides are accounted for, and so are the offers of
all stops that are not marked. No arrival is one that fewer rides attain. -/
structure Complete (router : TransitRouter α) (access : List (NearStop α)) (departure : α)
    (done : Nat) (marked : List StopId) (best : Array (Arrival α)) : Prop where
  covers : ∀ {a legs stop time}, Journey router.timetable access departure a legs stop time →
    Unwalked legs → legs.length ≤ done → Within best stop time
  relaxed : ∀ {here leg source target}, router.Offers best here leg source target →
    source ∉ marked → Within best target leg.arrival
  above : ∀ (stop : StopId) (label : Arrival α), best[stop.index]? = some label →
    -Scalar.infinity < label.time
  legs_le : ∀ (stop : StopId) (label : Arrival α), best[stop.index]? = some label →
    label.legs ≤ done
  fewest : ∀ {a legs stop time} {label : Arrival α},
    Journey router.timetable access departure a legs stop time → Unwalked legs →
      best[stop.index]? = some label → legs.length < label.legs → label.time < time

section Start

variable {state : RoundState α}

/-- The walks to the first stops are complete for journeys without rides. -/
theorem complete_start (hdeparture : Scalar.IsNumber departure)
    (hwalks : ∀ a ∈ access, Scalar.isFinite a.walkTime = true)
    (habove : ∀ a ∈ access, -Scalar.infinity < departure + a.walkTime)
    (hsince : RoundState.Since (Entered access departure) router.nowhere state)
    (hwithin : ∀ a ∈ access, Scalar.IsNumber (departure + a.walkTime) →
      Within state.best a.stop (departure + a.walkTime)) :
    router.Complete access departure 0 state.improved state.best := by
  have hcases : ∀ {stop : StopId} {label : Arrival α}, state.best[stop.index]? = some label →
      label.legs = 0 ∧ -Scalar.infinity < label.time := by
    intro stop label hlabel
    rcases hsince.cases hlabel with ⟨-, hold⟩ | ⟨-, ⟨a, hnear, -, rfl⟩, -⟩
    · cases eq_unreached_of_nowhere hold
      have hzero := LawfulScalar.isFinite_iff.mp (LawfulScalar.isFinite_zero (α := α))
      exact ⟨rfl, Scalar.lt_trans hzero.1 hzero.2⟩
    · exact ⟨rfl, habove a hnear⟩
  constructor
  · intro a legs stop time hjourney _ hlength
    cases hjourney with
    | enter hnear =>
      exact hwithin _ hnear (Scalar.isNumber_add hdeparture (hwalks _ hnear))
    | ride => simp at hlength
    | rideAndWalk => simp at hlength
  · exact fun {here leg source target} => relaxed_start hsince here leg source target
  · exact fun stop label hlabel => (hcases hlabel).2
  · exact fun stop label hlabel => Nat.le_of_eq (hcases hlabel).1
  · intro a legs stop time label _ _ hlabel hlt
    rw [(hcases hlabel).1] at hlt
    exact absurd hlt (Nat.not_lt_zero _)

end Start

namespace Complete

variable {rides next : RoundState α}

omit [LawfulScalar α] in
theorem isRelaxed (h : router.Complete access departure done marked best) :
    router.Relaxed marked best :=
  fun _ _ _ _ => h.relaxed

/-- What a round improves is not before all times, and makes one leg more than an earlier arrival.
-/
theorem above_of_advances (htimetable : router.timetable.Sound)
    (hfits : router.Fits marked before) (h : router.Complete access departure done marked before)
    (hnext : router.Advances marked before rides next) {stop : StopId} {label : Arrival α}
    (hlabel : next.best[stop.index]? = some label) :
    -Scalar.infinity < label.time ∧ label.legs ≤ done + 1 := by
  rcases hnext.since.cases hlabel with ⟨-, hold⟩ | ⟨hstop, -⟩
  · exact ⟨h.above stop label hold, Nat.le_succ_of_le (h.legs_le stop label hold)⟩
  · obtain ⟨source, -, here, hhere, -, hle, hlegs⟩ :=
      hnext.follows htimetable hfits h.isRelaxed hstop hlabel
    have hcount := h.legs_le source here hhere
    exact ⟨Scalar.lt_of_lt_of_le (h.above source here hhere) hle, by omega⟩

/-- A round accounts for one more ride. -/
theorem succ (htimetable : router.timetable.Sound)
    (hpatient : router.parameters.maxTransferWait = Scalar.infinity)
    (hfits : router.Fits marked before) (h : router.Complete access departure done marked before)
    (hnext : router.Advances marked before rides next) :
    router.Complete access departure (done + 1) next.improved next.best := by
  have hnew : ∀ {stop : StopId} {label : Arrival α}, next.best[stop.index]? = some label →
      -Scalar.infinity < label.time ∧ label.legs ≤ done + 1 :=
    fun hlabel => h.above_of_advances htimetable hfits hnext hlabel
  constructor
  · intro a legs stop time hjourney hunwalked hlength
    cases hjourney with
    | enter hnear => exact hnext.within (h.covers (.enter hnear) hunwalked (Nat.zero_le _))
    | ride hbefore hruns hready hwalk =>
      rw [List.length_append, List.length_singleton] at hlength
      have hsource := h.covers hbefore (unwalked_concat.mp hunwalked).1 (by omega)
      exact within_of_runs htimetable hpatient (hnext.fits hfits) h.above (hready ▸ hsource) hruns
        fun here leg' hoffer => h.isRelaxed.within_of_offers hnext hoffer
    | rideAndWalk _ _ _ hwalk _ _ => cases hwalk.symm.trans (unwalked_concat.mp hunwalked).2
  · exact fun {here leg source target} => h.isRelaxed.advances hnext here leg source target
  · exact fun stop label hlabel => (hnew hlabel).1
  · exact fun stop label hlabel => (hnew hlabel).2
  · intro a legs stop time label hjourney hunwalked hlabel hlt
    rcases hnext.since.cases hlabel with ⟨-, hold⟩ | ⟨-, -, known, hknown, hearlier⟩
    · exact h.fewest hjourney hunwalked hold hlt
    · -- The arrival is strictly better than all that so few rides can attain.
      have hlegs := (hnew hlabel).2
      obtain ⟨known', hknown', hle⟩ := h.covers hjourney hunwalked (by omega)
      cases hknown.symm.trans hknown'
      exact Scalar.lt_of_lt_of_le hearlier hle

/-- Where nothing is left to go on from, journeys of any number of rides are accounted for. -/
theorem within_of_journey (htimetable : router.timetable.Sound)
    (hpatient : router.parameters.maxTransferWait = Scalar.infinity)
    (hfits : router.Fits [] best) (h : router.Complete access departure done [] best)
    {a : NearStop α} {legs : List (Leg α)} {stop : StopId} {time : α}
    (hjourney : Journey router.timetable access departure a legs stop time)
    (hunwalked : Unwalked legs) : Within best stop time := by
  induction hjourney with
  | enter hnear => exact h.covers (.enter hnear) hunwalked (Nat.zero_le _)
  | ride _ hruns hready _ ih =>
    have hsource := ih (unwalked_concat.mp hunwalked).1
    exact within_of_runs htimetable hpatient hfits h.above (hready ▸ hsource) hruns
      fun here leg' hoffer => h.relaxed hoffer List.not_mem_nil
  | rideAndWalk _ _ _ hwalk _ _ => cases hwalk.symm.trans (unwalked_concat.mp hunwalked).2

end Complete

/-! ## Trees -/

section Tree

variable (hrouter : router.Sound isTrain)
  (hpatient : router.parameters.maxTransferWait = Scalar.infinity)
  (haccess : ∀ a ∈ access, router.timetable.contains a.stop = true)
  (hdeparture : Scalar.isFinite departure = true)
  (hwalks : ∀ a ∈ access, Scalar.isFinite a.walkTime = true)
  (habove : ∀ a ∈ access, -Scalar.infinity < departure + a.walkTime)

include hrouter hpatient haccess hdeparture hwalks habove

/-- The arrivals of a tree are complete for all journeys within the limit on changes. -/
theorem within_of_tree (hstops : router.timetable.stopCount < 2 ^ 32 - 1) :
    Returns (router.tree access departure) fun tree =>
      (∀ a legs stop time, Journey router.timetable access departure a legs stop time →
        Unwalked legs → legs.length ≤ router.parameters.maxTransfers + 1 →
          Within tree.arrivals stop time) ∧
      (∀ (stop : StopId) (label : Arrival α), tree.arrivals[stop.index]? = some label →
        -Scalar.infinity < label.time) ∧
      ∀ a legs (stop : StopId) time (label : Arrival α),
        Journey router.timetable access departure a legs stop time →
        Unwalked legs → tree.arrivals[stop.index]? = some label → legs.length < label.legs →
          label.time < time := by
  refine (tree_spec hrouter haccess (I := router.Complete access departure)
    (fun state => complete_start (Scalar.isNumber_of_isFinite hdeparture) hwalks habove)
    (fun done marked before rides next h hfits hnext =>
      h.succ hrouter.timetable hpatient hfits hnext)).mono ?_
  rintro tree ⟨marked, hcomplete, hfits, -, hend⟩
  refine ⟨fun a legs stop time hjourney hunwalked hlength => ?_, hcomplete.above,
    fun a legs stop time label hjourney hunwalked hlabel hlt =>
      hcomplete.fewest hjourney hunwalked hlabel hlt⟩
  rcases hend with rfl | hrounds
  · exact hcomplete.within_of_journey hrouter.timetable hpatient hfits hjourney hunwalked
  · -- A journey of more rides than rounds can be made with fewer rides than there are stops.
    have hnumber : Scalar.IsNumber (departure + a.walkTime) := by
      have hnear := hjourney.mem_access
      exact Scalar.isNumber_add (Scalar.isNumber_of_isFinite hdeparture) (hwalks a hnear)
    obtain ⟨visited, legs', time', hloopless, hlength', hle⟩ :=
      hjourney.exists_loopless hrouter.timetable hunwalked hnumber
    have hfew := hloopless.length_legs_lt hrouter.timetable haccess
    obtain ⟨hjourney', hunwalked'⟩ := hloopless.journey
    have hle' : legs'.length ≤ tree.rounds := by
      rw [hrounds, RouterParameters.maxRounds]
      omega
    obtain ⟨label, hlabel, hlabel'⟩ := hcomplete.covers hjourney' hunwalked' hle'
    exact ⟨label, hlabel, Scalar.le_trans hlabel' hle⟩

end Tree

/-- Without a limit on waits, and when no walk to a stop overflows before all times, no journey that
changes at stops and makes no more changes than allowed arrives before the tree does. Without
transfers in the timetable, exactly the stops of such journeys are reached, each label has the
earliest arrival of them, and the fewest rides with which that is attained. -/
theorem tree_optimal {draft : TimetableDraft α} {timetable : Timetable α}
    {router : TransitRouter α} (parameters : RouterParameters α) (isTrain : Route α → Bool)
    (access : List (NearStop α)) (departure : α) (hdraft : draft.Drafted)
    (hbuild : draft.build = .ok timetable) (hstops : timetable.stopCount < 2 ^ 32 - 1)
    (hroutes : timetable.routeCount < 2 ^ 32 - 1)
    (hnew : TransitRouter.new timetable parameters isTrain = .ok router)
    (hpatient : parameters.maxTransferWait = Scalar.infinity)
    (haccess : ∀ a ∈ access, timetable.contains a.stop = true)
    (hdeparture : Scalar.isFinite departure = true)
    (hwalks : ∀ a ∈ access, Scalar.isFinite a.walkTime = true)
    (habove : ∀ a ∈ access, -Scalar.infinity < departure + a.walkTime) :
    ∃ tree, router.tree access departure = .ok tree ∧
      (∀ a legs stop time, Journey timetable access departure a legs stop time → Unwalked legs →
        legs.length ≤ parameters.maxTransfers + 1 → Within tree.arrivals stop time) ∧
      ((∀ stop transfers, timetable.transfersFrom stop = .ok transfers → transfers = []) →
        ∀ stop : StopId,
          ((∃ label, tree.arrival? stop = some label) ↔
            ∃ a legs time, Journey timetable access departure a legs stop time ∧
              legs.length ≤ parameters.maxTransfers + 1 ∧ Scalar.isFinite time = true) ∧
          ∀ label, tree.arrival? stop = some label →
            (∃ a legs, Journey timetable access departure a legs stop label.time ∧
              legs.length = label.legs ∧ label.legs ≤ parameters.maxTransfers + 1) ∧
            ∀ a legs time, Journey timetable access departure a legs stop time →
              legs.length ≤ parameters.maxTransfers + 1 →
                label.time ≤ time ∧ (time ≤ label.time → label.legs ≤ legs.length)) := by
  have htimetable := hdraft.sound_build hbuild (by omega) (by omega)
  obtain ⟨hrouter, hvalid, rfl, rfl⟩ := sound_of_new htimetable hnew
  obtain ⟨tree, htree, hwithin, hlow, hfewest⟩ :=
    within_of_tree hrouter hpatient haccess hdeparture hwalks habove hstops
  obtain ⟨tree', htree', hrounds, hmade⟩ :=
    made_of_tree hrouter (RouterParameters.isNumber_of_validate hvalid) departure haccess
  cases htree.symm.trans htree'
  refine ⟨tree, htree, hwithin, fun hnone stop => ?_⟩
  have hunwalked : ∀ {a legs stop time},
      Journey router.timetable access departure a legs stop time →
      Unwalked legs := fun hjourney => hjourney.unwalked hnone
  have hreach : ∀ {label}, tree.arrival? stop = some label →
      tree.arrivals[stop.index]? = some label ∧ ∃ a legs,
        Journey router.timetable access departure a legs stop label.time ∧
          legs.length = label.legs ∧ label.legs ≤ router.parameters.maxTransfers + 1 := by
    intro label hlabel
    obtain ⟨hknown, hreached⟩ := Option.filter_eq_some_iff.mp hlabel
    obtain ⟨a, legs, hjourney, htotals, hlegs, -⟩ := hmade stop label hknown hreached
    have hle := Nat.le_trans hlegs (Nat.le_trans hrounds (Nat.min_le_left _ _))
    exact ⟨hknown, a, legs, hjourney, htotals.legCount.symm, hle⟩
  constructor
  · constructor
    · rintro ⟨label, hlabel⟩
      obtain ⟨hknown, a, legs, hjourney, hlegs, hle⟩ := hreach hlabel
      exact ⟨a, legs, label.time, hjourney, hlegs ▸ hle, (Option.filter_eq_some_iff.mp hlabel).2⟩
    · rintro ⟨a, legs, time, hjourney, hlength, hfinite⟩
      obtain ⟨label, hlabel, hle⟩ := hwithin a legs stop time hjourney (hunwalked hjourney) hlength
      have hlt := Scalar.lt_of_le_of_lt hle (Scalar.lt_infinity_of_isFinite hfinite)
      have hreached : label.isReached = true :=
        LawfulScalar.isFinite_iff.mpr ⟨hlow stop label hlabel, hlt⟩
      exact ⟨label, Option.filter_eq_some_iff.mpr ⟨hlabel, hreached⟩⟩
  · intro label hlabel
    obtain ⟨hknown, hjourney⟩ := hreach hlabel
    refine ⟨hjourney, fun a legs time hother hlength => ?_⟩
    obtain ⟨label', hlabel', hle⟩ := hwithin a legs stop time hother (hunwalked hother) hlength
    cases hknown.symm.trans hlabel'
    refine ⟨hle, fun hattained => Nat.le_of_not_lt fun hlt => ?_⟩
    exact Scalar.not_lt_of_le hattained
      (hfewest a legs stop time label hother (hunwalked hother) hknown hlt)

end TransitRouter

/-! ## A shuttle -/

/-- A bus from one stop to another. -/
def shuttle : Except (TransitError Float) (TimetableDraft Float) := do
  let draft := (TimetableDraft.empty.addStop ⟨0, 0⟩).2
  let draft := (draft.addStop ⟨4000, 0⟩).2
  let (_, draft) ← draft.addRoute "S" .bus [⟨⟨0⟩, 0, 0, none⟩, ⟨⟨1⟩, 60, 60, some 4000⟩] [600]
  return draft

/-- The limit on waits is lifted. -/
def patient : RouterParameters Float :=
  { RouterParameters.standard with maxTransferWait := Scalar.infinity }

/-- The timetable of the shuttle. -/
def shuttleTimetable : Timetable Float :=
  { stops := #[⟨0, 0⟩, ⟨4000, 0⟩]
    routes := #[{ line := "S", mode := .bus
                  calls := #[⟨⟨0⟩, 0, 0, none⟩, ⟨⟨1⟩, 60, 60, some 4000⟩]
                  departures := #[600], mileage := #[0, 0 + 4000] }]
    serving := #[#[(⟨0⟩, 0)], #[(⟨0⟩, 1)]]
    transfers := #[#[], #[]] }

theorem drafted_shuttle :
    ∃ draft : TimetableDraft Float, draft.Drafted ∧ draft.build = .ok shuttleTimetable := by
  have hdrafted : Ok shuttle TimetableDraft.Drafted := by
    have hstops := TimetableDraft.Drafted.empty.addStop (α := Float) ⟨0, 0⟩ |>.addStop ⟨4000, 0⟩
    refine Ok.bind (Q := fun next => next.2.Drafted) (fun _ h => hstops.addRoute h) ?_
    exact fun next hnext => Ok.pure hnext
  refine ⟨_, hdrafted _ rfl, ?_⟩
  rw [List.mergeSort_singleton]
  rfl

theorem transfersFrom_shuttle (stop : StopId) (transfers : List (Transfer Float))
    (h : shuttleTimetable.transfersFrom stop = .ok transfers) : transfers = [] := by
  unfold Timetable.transfersFrom at h
  generalize stop.index = i at h
  rcases i with _ | _ | i
  · cases h
    rfl
  · cases h
    rfl
  · cases h

theorem tree_optimal_shuttle : ∃ (draft : TimetableDraft Float) (router : TransitRouter Float)
    (tree : TransitTree Float), draft.Drafted ∧ draft.build = .ok shuttleTimetable ∧
      TransitRouter.new shuttleTimetable patient (fun _ => false) = .ok router ∧
      patient.maxTransferWait = Scalar.infinity ∧
      shuttleTimetable.contains ⟨0⟩ = true ∧ Scalar.isFinite (540 : Float) = true ∧
      Scalar.isFinite (45 : Float) = true ∧ -Scalar.infinity < (540 + 45 : Float) ∧
      router.tree [⟨⟨0⟩, 45⟩] 540 = .ok tree ∧
      (∀ a legs stop time, Journey shuttleTimetable [⟨⟨0⟩, 45⟩] 540 a legs stop time →
        Unwalked legs → legs.length ≤ patient.maxTransfers + 1 → Within tree.arrivals stop time) ∧
      ∀ stop : StopId, (∃ label, tree.arrival? stop = some label) ↔
        ∃ a legs time, Journey shuttleTimetable [⟨⟨0⟩, 45⟩] 540 a legs stop time ∧
          legs.length ≤ patient.maxTransfers + 1 ∧ Scalar.isFinite time = true := by
  obtain ⟨draft, hdraft, hbuild⟩ := drafted_shuttle
  obtain ⟨tree, htree, hearliest, hreached⟩ := TransitRouter.tree_optimal patient (fun _ => false)
    [⟨⟨0⟩, 45⟩] 540 hdraft hbuild (by decide) (by decide) rfl rfl (by decide) rfl (by decide)
    (by decide +kernel)
  exact ⟨draft, _, tree, hdraft, hbuild, rfl, rfl, by decide, rfl, rfl, by decide +kernel, htree,
    hearliest, fun stop => (hreached transfersFrom_shuttle stop).1⟩

/-! ## A walk from before all times -/

/-- The least finite number. -/
def leastFinite : Float := .ofBits 0xFFEFFFFFFFFFFFFF

/-- A stop that is reached before all times, when leaving at the least time. -/
def longAgo : NearStop Float := ⟨⟨0⟩, leastFinite⟩

/-- The ride of the shuttle by a rider who has been there from before all times. -/
def shuttleRide : Leg Float :=
  { id := ⟨0⟩
    route := { line := "S", mode := .bus
               calls := #[⟨⟨0⟩, 0, 0, none⟩, ⟨⟨1⟩, 60, 60, some 4000⟩]
               departures := #[600], mileage := #[0, 0 + 4000] }
    trip := 0, boarding := 0, alighting := 1, ready := leastFinite + leastFinite
    departure := 600 + 0, arrival := 600 + 60, metres := 0 + 4000 - 0, walk := none }

theorem runs_shuttleRide : shuttleRide.Runs shuttleTimetable ⟨0⟩ ⟨1⟩ :=
  ⟨rfl, ⟨_, rfl, rfl⟩, ⟨_, rfl, rfl⟩, by decide, rfl, rfl, rfl, by decide +kernel⟩

/-- The router of the shuttle. -/
def shuttleRouter : TransitRouter Float :=
  { timetable := shuttleTimetable, parameters := patient, isTrain := #[false] }

theorem new_shuttle :
    TransitRouter.new shuttleTimetable patient (fun _ => false) = .ok shuttleRouter :=
  TransitRouter.new_eq rfl (by simp [shuttleTimetable])

/-- The first stop at an infinite time before all others, and the second one not reached. -/
def lostArrivals : Array (Arrival Float) :=
  #[{ (Arrival.unreached : Arrival Float) with
      time := leastFinite + leastFinite, accessTime := leastFinite }, .unreached]

/-- The shuttle is not taken from a stop that counts as not reached. -/
theorem tree_shuttleRouter : shuttleRouter.tree [longAgo] leastFinite =
    .ok { departure := leastFinite, arrivals := lostArrivals, rounds := 1 } := by
  have henter : [longAgo].foldlM (TransitRouter.enter leastFinite)
      { best := shuttleRouter.nowhere, improved := [] } = .ok ⟨lostArrivals, [⟨0⟩]⟩ := rfl
  have hqueue : shuttleRouter.routeQueue [⟨0⟩] = .ok [(⟨0⟩, 0)] := rfl
  have hscan : shuttleRouter.rideRoute lostArrivals ⟨lostArrivals, []⟩ (⟨0⟩, 0) =
    .ok ⟨lostArrivals, []⟩ := rfl
  have hwalks : shuttleRouter.walkAll ⟨lostArrivals, []⟩ = .ok ⟨lostArrivals, []⟩ := by
    simp [TransitRouter.walkAll, pure, Except.pure, bind, Except.bind]
  have hround : shuttleRouter.round [⟨0⟩] lostArrivals = .ok ⟨lostArrivals, []⟩ :=
    bind_eq_ok.mpr ⟨_, hqueue, bind_eq_ok.mpr ⟨_, bind_eq_ok.mpr ⟨_, hscan, rfl⟩, hwalks⟩⟩
  exact bind_eq_ok.mpr ⟨_, henter, bind_eq_ok.mpr ⟨_, bind_eq_ok.mpr ⟨_, hround, rfl⟩, rfl⟩⟩

/-- Finite times of departure and of walks do not suffice: a rider who is at a stop from before all
times can take the shuttle, and the tree does not reach where it goes. -/
theorem not_tree_optimal : ∃ (draft : TimetableDraft Float) (router : TransitRouter Float)
    (tree : TransitTree Float) (legs : List (Leg Float)), draft.Drafted ∧
      draft.build = .ok shuttleTimetable ∧
      TransitRouter.new shuttleTimetable patient (fun _ => false) = .ok router ∧
      patient.maxTransferWait = Scalar.infinity ∧ shuttleTimetable.contains longAgo.stop = true ∧
      Scalar.isFinite leastFinite = true ∧ Scalar.isFinite longAgo.walkTime = true ∧
      router.tree [longAgo] leastFinite = .ok tree ∧
      Journey shuttleTimetable [longAgo] leastFinite longAgo legs ⟨1⟩ (600 + 60) ∧
      Unwalked legs ∧ legs.length ≤ patient.maxTransfers + 1 ∧
      Scalar.isFinite (600 + 60 : Float) = true ∧
      ¬ Within tree.arrivals ⟨1⟩ (600 + 60) ∧ tree.arrival? ⟨1⟩ = none := by
  obtain ⟨draft, hdraft, hbuild⟩ := drafted_shuttle
  have hjourney :
      Journey shuttleTimetable [longAgo] leastFinite longAgo [shuttleRide] ⟨1⟩ (600 + 60) :=
    .ride (.enter (List.mem_singleton.mpr rfl)) runs_shuttleRide rfl rfl
  have hunwalked : Unwalked [shuttleRide] := by
    intro leg hleg
    cases List.mem_singleton.mp hleg
    rfl
  refine ⟨draft, shuttleRouter, _, _, hdraft, hbuild, new_shuttle, rfl, rfl, rfl, rfl,
    tree_shuttleRouter,
    hjourney, hunwalked, by decide, rfl, ?_, rfl⟩
  rintro ⟨label, hlabel, hle⟩
  cases hlabel
  exact absurd hle (by decide +kernel)

end ZoneSkims
