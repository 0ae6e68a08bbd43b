import ZoneSkims.Proofs.Scalar.Double
import ZoneSkims.Proofs.Transit.Rounds

/-!
# Arrivals are journeys

Every arrival that a search reports is that of a journey: its time and its totals are what the
journey's legs come to, in their order.

* `TransitRouter.Made`: an arrival has a journey, of at most so many rides.
* `TransitRouter.exists_journey_of_arrival`: every reached stop has a journey with the figures of
  its label, within the limits on changes and on waits.
-/

namespace ZoneSkims

variable {α : Type} [Scalar α]

/-- A limit on waits that passed the check is defined. -/
theorem RouterParameters.isNumber_of_validate {parameters : RouterParameters α}
    (h : parameters.validate = .ok ()) : Scalar.IsNumber parameters.maxTransferWait := by
  unfold validate at h
  obtain ⟨_, -, h⟩ := bind_eq_ok.mp h
  obtain ⟨_, -, h⟩ := bind_eq_ok.mp h
  obtain ⟨_, -, h⟩ := bind_eq_ok.mp h
  split at h
  · cases h
  · next hwait =>
    rw [Bool.or_eq_true, not_or, Bool.not_eq_true] at hwait
    exact hwait.1

namespace TransitRouter

/-- A journey of at most so many rides has the figures of the arrival, and never waits too long for
a change. -/
def Made (router : TransitRouter α) (isTrain : Route α → Bool) (access : List (NearStop α))
    (departure : α) (rides : Nat) (stop : StopId) (label : Arrival α) : Prop :=
  ∃ a legs, Journey router.timetable access departure a legs stop label.time ∧
    label.Totals isTrain a legs ∧ label.legs ≤ rides ∧
      ∀ leg ∈ legs.tail, leg.departure - leg.ready ≤ router.parameters.maxTransferWait

variable {router : TransitRouter α} {isTrain : Route α → Bool} {access : List (NearStop α)}
  {departure : α} {rides : Nat}

theorem Made.mono {more : Nat} {stop : StopId} {label : Arrival α}
    (h : router.Made isTrain access departure rides stop label) (hle : rides ≤ more) :
    router.Made isTrain access departure more stop label := by
  obtain ⟨a, legs, hjourney, htotals, hlegs, hwaits⟩ := h
  exact ⟨a, legs, hjourney, htotals, Nat.le_trans hlegs hle, hwaits⟩

theorem made_of_entered {stop : StopId} {label : Arrival α}
    (h : Entered access departure stop label) :
    router.Made isTrain access departure 0 stop label := by
  obtain ⟨a, hnear, rfl, rfl⟩ := h
  exact ⟨a, [], .enter hnear, ⟨rfl, rfl, rfl, rfl, rfl, rfl⟩, Nat.le_refl _, by simp⟩

variable [LawfulScalar α] (hrouter : router.Sound isTrain)
  (hwait : Scalar.IsNumber router.parameters.maxTransferWait) {before : Array (Arrival α)}

include hrouter hwait

/-- The legs so far and the leg of an offer keep the limit on waits. -/
theorem wait_le_of_offers {here : Arrival α} {a : NearStop α} {legs : List (Leg α)} {leg : Leg α}
    {source target : StopId} (hoffer : router.Offers before here leg source target)
    (htotals : here.Totals isTrain a legs)
    (hwaits : ∀ leg ∈ legs.tail, leg.departure - leg.ready ≤ router.parameters.maxTransferWait) :
    ∀ l ∈ (legs ++ [leg]).tail, l.departure - l.ready ≤ router.parameters.maxTransferWait := by
  intro l hl
  cases legs with
  | nil => cases hl
  | cons first rest =>
    rcases List.mem_append.mp hl with hl | hl
    · exact hwaits l hl
    · cases List.mem_singleton.mp hl
      have hroute := hrouter.timetable.route_sound hoffer.runs.route
      have hnumber := hroute.isNumber_departureAt hoffer.runs.departure
      have hlegs : 0 < here.legs := by simp [htotals.legCount]
      rw [hoffer.ready]
      exact Scalar.le_of_not_lt hwait (LawfulScalar.isNumber_sub hnumber hoffer.isReached)
        (hoffer.wait hlegs)

/-- After an offered ride, also with a walk behind it, the arrival still has its journey. -/
theorem made_of_offers {here : Arrival α} {leg : Leg α} {source target : StopId}
    (hhere : router.Made isTrain access departure rides source here)
    (hoffer : router.Offers before here leg source target) (hwalk : leg.walk = none) :
    router.Made isTrain access departure (rides + 1) target
      (here.ride leg.arrival (leg.arrival - leg.departure) leg.metres (isTrain leg.route)) ∧
    ∀ transfers transfer, router.timetable.transfersFrom target = .ok transfers →
      transfer ∈ transfers →
        router.Made isTrain access departure (rides + 1) transfer.target
          (here.ride (leg.arrival + transfer.walkTime) (leg.arrival - leg.departure) leg.metres
            (isTrain leg.route)) := by
  obtain ⟨a, legs, hjourney, htotals, hlegs, hwaits⟩ := hhere
  have hcount : here.legs + 1 ≤ rides + 1 := Nat.succ_le_succ hlegs
  refine ⟨⟨a, legs ++ [leg], ?_, htotals.ride leg _, hcount, ?_⟩,
    fun transfers transfer htransfers htransfer => ?_⟩
  · exact .ride hjourney hoffer.runs hoffer.ready hwalk
  · exact wait_le_of_offers hrouter hwait hoffer htotals hwaits
  · -- The walk belongs to the leg, and changes neither its ride nor the totals.
    let walked : Leg α := { leg with walk := some transfer }
    have hwalked : router.Offers before here walked source target :=
      { hoffer with runs := { hoffer.runs with } }
    exact ⟨a, legs ++ [walked],
      .rideAndWalk hjourney hwalked.runs hwalked.ready rfl htransfers htransfer,
      htotals.ride walked _, hcount, wait_le_of_offers hrouter hwait hwalked htotals hwaits⟩

/-- One round keeps that all arrivals have journeys. -/
theorem Advances.made {marked : List StopId} {state next : RoundState α}
    (h : router.Advances marked before state next)
    (hbefore : ∀ (stop : StopId) (label : Arrival α), before[stop.index]? = some label →
      label.isReached = true → router.Made isTrain access departure rides stop label) :
    ∀ (stop : StopId) (label : Arrival α), next.best[stop.index]? = some label →
      label.isReached = true → router.Made isTrain access departure (rides + 1) stop label := by
  intro stop label hlabel hreached
  rcases h.since.cases hlabel with ⟨-, hold⟩ | ⟨-, hnew, -⟩
  · exact (hbefore stop label hold hreached).mono (Nat.le_succ _)
  · have hride : ∀ {target : StopId} {here : Arrival α} {leg : Leg α} {source : StopId}
        {train : Bool}, router.Offers before here leg source target →
        fetch router.isTrain leg.id.index = .ok train →
          router.Made isTrain access departure rides source here ∧ train = isTrain leg.route := by
      intro target here leg source train hoffer htrain
      have htrain' := hrouter.train hoffer.runs.route
      rw [htrain] at htrain'
      exact ⟨hbefore source here hoffer.known hoffer.isReached, Except.ok.inj htrain'⟩
    rcases hnew with ⟨here, leg, source, train, hoffer, hwalk, htrain, rfl⟩ |
      ⟨source, label', transfers, transfer, hsource, hlabel', htransfers, htransfer, rfl, rfl⟩
    · obtain ⟨hhere, rfl⟩ := hride hoffer htrain
      exact (made_of_offers hrouter hwait hhere hoffer hwalk).1
    · -- The walk starts at a stop that was improved by a ride of this round.
      rcases h.since_rides.cases hlabel' with ⟨hnot, -⟩ | ⟨-, hridden, -⟩
      · exact absurd hsource hnot
      · obtain ⟨here, leg, source', train, hoffer, hwalk, htrain, rfl⟩ := hridden
        obtain ⟨hhere, rfl⟩ := hride hoffer htrain
        exact (made_of_offers hrouter hwait hhere hoffer hwalk).2 transfers transfer htransfers
          htransfer

omit [LawfulScalar α] hrouter hwait in
theorem made_of_since_nowhere {state : RoundState α} {stop : StopId} {label : Arrival α}
    (h : RoundState.Since (Entered access departure) router.nowhere state)
    (hlabel : state.best[stop.index]? = some label) :
    label = Arrival.unreached ∨ router.Made isTrain access departure 0 stop label := by
  rcases h.cases hlabel with ⟨-, hold⟩ | ⟨-, hentered, -⟩
  · exact .inl (eq_unreached_of_nowhere hold)
  · exact .inr (made_of_entered hentered)

/-- All arrivals of a tree that are reached have journeys, with at most as many rides as there were
rounds. -/
theorem made_of_tree (departure : α)
    (haccess : ∀ a ∈ access, router.timetable.contains a.stop = true) :
    Returns (router.tree access departure) fun tree =>
      tree.rounds ≤ router.parameters.maxRounds ∧
        ∀ (stop : StopId) (label : Arrival α), tree.arrivals[stop.index]? = some label →
          label.isReached = true →
            router.Made isTrain access departure tree.rounds stop label := by
  refine (tree_spec hrouter haccess
    (I := fun rounds _ best => ∀ (stop : StopId) (label : Arrival α),
      best[stop.index]? = some label → label.isReached = true →
        router.Made isTrain access departure rounds stop label) ?_ ?_).mono ?_
  · intro state hsince _ stop label hlabel hreached
    rcases made_of_since_nowhere hsince hlabel with rfl | hmade
    · exact absurd (Scalar.lt_infinity_of_isFinite hreached) (Scalar.lt_irrefl _)
    · exact hmade
  · intro done marked before rides next hI _ hadvances
    exact hadvances.made hrouter hwait hI
  · rintro tree ⟨marked, hI, -, hle, -⟩
    exact ⟨hle, hI⟩

omit hrouter hwait

/-- Every stop that is reached in a built timetable is reached by a journey. Its time and totals are
those of the stop's label, it makes no more changes than allowed, and no wait for a change is longer
than allowed. -/
theorem exists_journey_of_arrival {draft : TimetableDraft α} {timetable : Timetable α}
    {router : TransitRouter α} (parameters : RouterParameters α) (isTrain : Route α → Bool)
    (access : List (NearStop α)) (departure : α) (hdraft : draft.Drafted)
    (hbuild : draft.build = .ok timetable) (hstops : timetable.stopCount < 2 ^ 32 - 1)
    (hroutes : timetable.routeCount < 2 ^ 32 - 1)
    (hnew : TransitRouter.new timetable parameters isTrain = .ok router)
    (haccess : ∀ a ∈ access, timetable.contains a.stop = true) :
    ∃ tree, router.tree access departure = .ok tree ∧
      ∀ (stop : StopId) (label : Arrival α), tree.arrival? stop = some label →
        ∃ a legs, Journey timetable access departure a legs stop label.time ∧
          label.Totals isTrain a legs ∧ legs.length ≤ parameters.maxTransfers + 1 ∧
            ∀ leg ∈ legs.tail, leg.departure - leg.ready ≤ parameters.maxTransferWait := by
  have htimetable := hdraft.sound_build hbuild (by omega) (by omega)
  obtain ⟨hrouter, hvalid, rfl, rfl⟩ := sound_of_new htimetable hnew
  obtain ⟨tree, htree, hrounds, hmade⟩ :=
    made_of_tree hrouter (RouterParameters.isNumber_of_validate hvalid) departure haccess
  refine ⟨tree, htree, fun stop label hlabel => ?_⟩
  obtain ⟨hknown, hreached⟩ := Option.filter_eq_some_iff.mp hlabel
  obtain ⟨a, legs, hjourney, htotals, hlegs, hwaits⟩ := hmade stop label hknown hreached
  refine ⟨a, legs, hjourney, htotals, ?_, hwaits⟩
  rw [← htotals.legCount]
  exact Nat.le_trans hlegs (Nat.le_trans hrounds (Nat.min_le_left _ _))

end TransitRouter

/-! ## An example -/

/-- A bus to the second stop, a walk to the third one, and two trains from there to the last. -/
def busAndTrain : Except (TransitError Float) (TimetableDraft Float) := do
  let draft := (TimetableDraft.empty.addStop ⟨0, 0⟩).2
  let draft := (draft.addStop ⟨4000, 0⟩).2
  let draft := (draft.addStop ⟨4050, 0⟩).2
  let draft := (draft.addStop ⟨90000, 0⟩).2
  let (_, draft) ← draft.addRoute "B" .bus [⟨⟨0⟩, 0, 0, none⟩, ⟨⟨1⟩, 600, 600, none⟩] [100]
  let (_, draft) ← draft.addRoute "T" .rail [⟨⟨2⟩, 0, 30, none⟩, ⟨⟨3⟩, 2400, 2400, none⟩] [900, 700]
  draft.addTransfer ⟨1⟩ ⟨2⟩ 60

theorem drafted_busAndTrain : Ok busAndTrain TimetableDraft.Drafted := by
  have hstops := TimetableDraft.Drafted.empty.addStop (α := Float) ⟨0, 0⟩
    |>.addStop ⟨4000, 0⟩ |>.addStop ⟨4050, 0⟩ |>.addStop ⟨90000, 0⟩
  refine Ok.bind (Q := fun next => next.2.Drafted) (fun _ h => hstops.addRoute h) fun bus hbus => ?_
  refine Ok.bind (Q := fun next => next.2.Drafted) (fun _ h => hbus.addRoute h)
    fun train htrain => ?_
  exact fun _ h => htrain.addTransfer h

theorem exists_journey_busAndTrain : ∃ draft timetable router tree,
    busAndTrain = .ok draft ∧ draft.Drafted ∧ draft.build = .ok timetable ∧
      timetable.stopCount < 2 ^ 32 - 1 ∧ timetable.routeCount < 2 ^ 32 - 1 ∧
      TransitRouter.new timetable .standard (fun route => decide (route.mode = .rail)) = .ok router ∧
      router.tree [⟨⟨0⟩, 45⟩] 0 = .ok tree ∧
      ∀ (stop : StopId) (label : Arrival Float), tree.arrival? stop = some label →
        ∃ a legs, Journey timetable [⟨⟨0⟩, 45⟩] 0 a legs stop label.time ∧
          label.Totals (fun route => decide (route.mode = .rail)) a legs ∧
            legs.length ≤ (RouterParameters.standard : RouterParameters Float).maxTransfers + 1 ∧
              ∀ leg ∈ legs.tail, leg.departure - leg.ready ≤
                (RouterParameters.standard : RouterParameters Float).maxTransferWait := by
  have hdraft := drafted_busAndTrain _ rfl
  obtain ⟨tree, htree, hjourneys⟩ := TransitRouter.exists_journey_of_arrival .standard
    (fun route => decide (route.mode = .rail)) [⟨⟨0⟩, 45⟩] 0 hdraft rfl (by decide) (by decide) rfl
    (by decide)
  exact ⟨_, _, _, tree, rfl, hdraft, rfl, by decide, by decide, rfl, htree, hjourneys⟩

end ZoneSkims
