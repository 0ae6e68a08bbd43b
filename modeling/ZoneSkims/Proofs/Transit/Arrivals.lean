import ZoneSkims.Proofs.Transit.Scan

/-!
# How arrivals come about

A search makes an arrival in one of three ways: by the walk to a first stop, by a ride, or by a walk
after one. What all three keep holds of every arrival of a tree. It does not matter here which of
the possible rides a search finds, and the timetable may have more stops than there are ids.

* `TransitRouter.Possible`: the arrivals that these ways make.
* `TransitRouter.possible_of_tree`: all arrivals of a tree are among them, and have no more rides
  than there may be rounds.
-/

namespace ZoneSkims

variable {α : Type} [Scalar α]

namespace TransitRouter

/-- The arrivals that can come about for a departure. Nobody rides from a stop that is not reached,
or in a vehicle that never arrives. -/
inductive Possible (router : TransitRouter α) (departure : α) : Arrival α → Prop
  | unreached : Possible router departure Arrival.unreached
  | enter (walkTime : α) :
      Possible router departure
        { Arrival.unreached with time := departure + walkTime, accessTime := walkTime }
  | ride {label : Arrival α} {leg : Leg α} {source target : StopId} {train : Bool}
      (hlabel : Possible router departure label) (hreached : label.isReached = true)
      (hruns : leg.Runs router.timetable source target) (hready : leg.ready = label.time)
      (htrain : fetch router.isTrain leg.id.index = .ok train)
      (harrives : leg.arrival < Scalar.infinity) :
      Possible router departure
        (label.ride leg.arrival (leg.arrival - leg.departure) leg.metres train)
  | walk {label : Arrival α} {stop : StopId} {transfers : List (Transfer α)}
      {transfer : Transfer α} (hlabel : Possible router departure label)
      (htransfers : router.timetable.transfersFrom stop = .ok transfers)
      (htransfer : transfer ∈ transfers) :
      Possible router departure { label with time := label.time + transfer.walkTime }

/-- All arrivals are possible ones with at most so many rides. -/
def AllPossible (router : TransitRouter α) (departure : α) (rides : Nat)
    (best : Array (Arrival α)) : Prop :=
  ∀ label ∈ best, router.Possible departure label ∧ label.legs ≤ rides

variable {router : TransitRouter α} {departure : α} {rides : Nat} {before : Array (Arrival α)}
  {state : RoundState α} {id : RouteId} {route : Route α} {train : Bool} {position n : Nat}
  {call : Call α} {b : Boarding α}

namespace AllPossible

theorem mono {more : Nat} (h : router.AllPossible departure rides before) (hle : rides ≤ more) :
    router.AllPossible departure more before :=
  fun label hlabel => ⟨(h label hlabel).1, Nat.le_trans (h label hlabel).2 hle⟩

theorem improve (h : router.AllPossible departure rides state.best) {label : Arrival α}
    (hlabel : router.Possible departure label) (hlegs : label.legs ≤ rides) (stop : StopId) :
    router.AllPossible departure rides (state.improve stop label).best := by
  intro found hfound
  rcases Array.mem_or_eq_of_mem_setIfInBounds hfound with hold | rfl
  · exact h found hold
  · exact ⟨hlabel, hlegs⟩

end AllPossible

/-! ## One route -/

section Scan

variable [LawfulScalar α]

theorem alight_possible (hroute : router.timetable.route id = .ok route)
    (htrain : fetch router.isTrain id.index = .ok train)
    (hbefore : router.AllPossible departure rides before)
    (hcall : route.calls[position]? = some call) (hb : router.Rides route before position b)
    (hstate : router.AllPossible departure (rides + 1) state.best) :
    Ok (alight route train b position call.stop state) fun next =>
      router.AllPossible departure (rides + 1) next.best := by
  obtain ⟨source, hsource, hlabel⟩ := hb.label
  obtain ⟨boarded, hboarded, hcatch, -⟩ := hb.catches
  obtain ⟨hpossible, hlegs⟩ := hbefore b.label (Array.mem_of_getElem? hlabel)
  unfold alight
  refine Ok.bind (Ok.self _) fun time htime => Ok.bind (Ok.trivial _) fun known _ => ?_
  split
  · next hearlier =>
    refine Ok.bind (Ok.self _) fun boarded' hboarded' => ?_
    refine Ok.bind (Ok.self _) fun metres hmetres => Ok.pure ?_
    cases hboarded.symm.trans hboarded'
    let leg : Leg α :=
      { id, route, trip := b.trip, boarding := b.position, alighting := position
        ready := b.label.time, departure := boarded, arrival := time, metres, walk := none }
    have hruns : leg.Runs router.timetable source.stop call.stop :=
      ⟨hroute, ⟨source, hsource, rfl⟩, ⟨call, hcall, rfl⟩, hb.position_lt, hboarded, htime,
        hmetres, hcatch⟩
    have hknown := Scalar.isNumber_right (Scalar.le_of_lt hearlier)
    have harrives := Scalar.lt_of_lt_of_le hearlier (LawfulScalar.le_infinity hknown)
    exact hstate.improve (.ride hpossible hb.isReached hruns rfl htrain harrives)
      (Nat.succ_le_succ hlegs) call.stop
  · exact Ok.pure hstate

/-- The trip that is ridden after a position was ridden before it, or is boarded there. -/
theorem board_rides (hsound : route.Sound n) (hcall : route.calls[position]? = some call)
    {boarded : Option (Boarding α)}
    (hboarded : ∀ b, boarded = some b → router.Rides route before position b) :
    Ok (router.board route before position call.stop boarded) fun next =>
      ∀ b, next = some b → router.Rides route before (position + 1) b := by
  have hkept : Ok (pure boarded : Checked (Option (Boarding α))) fun next =>
      ∀ b, next = some b → router.Rides route before (position + 1) b :=
    Ok.pure fun b hb => (hboarded b hb).succ
  unfold board
  refine Ok.bind (Ok.fetch _ _) fun here hhere => ?_
  cases hreached : here.isReached with
  | false => exact hkept
  | true =>
    refine Ok.bind (Ok.self _) fun found hfound => ?_
    cases found with
    | none => exact hkept
    | some trip =>
      obtain ⟨time, htime, hcatch⟩ := hsound.catches_of_earliestTrip hfound
        (Scalar.isNumber_of_isFinite hreached)
      dsimp only
      split
      · exact hkept
      · refine Ok.bind (Ok.self _) fun time' htime' => ?_
        cases htime.symm.trans htime'
        split
        · exact hkept
        · next hshort =>
          simp only [Bool.and_eq_true, decide_eq_true_eq, not_and] at hshort
          refine Ok.pure fun b hb => ?_
          cases hb
          exact ⟨Nat.lt_succ_self _, ⟨call, hcall, hhere⟩, hreached,
            ⟨time, htime, hcatch, hshort⟩, hfound⟩

theorem rideCalls_possible (hsound : route.Sound n)
    (hroute : router.timetable.route id = .ok route)
    (htrain : fetch router.isTrain id.index = .ok train)
    (hbefore : router.AllPossible departure rides before) (calls : List (Call α × Nat)) :
    ∀ {position : Nat} {boarded : Option (Boarding α)} {state : RoundState α},
      calls = route.calls.toList.zipIdx.drop position →
      (∀ b, boarded = some b → router.Rides route before position b) →
      router.AllPossible departure (rides + 1) state.best →
      Ok (router.rideCalls route train before calls boarded state) fun next =>
        router.AllPossible departure (rides + 1) next.best := by
  induction calls with
  | nil => exact fun _ _ hstate => Ok.pure hstate
  | cons entry calls ih =>
    intro start boarded state hcalls hboarded hstate
    obtain ⟨call, position⟩ := entry
    obtain ⟨rfl, hcall, hrest⟩ := calls_eq_drop hcalls
    rw [rideCalls_cons]
    refine Ok.bind (Q := fun left => router.AllPossible departure (rides + 1) left.best) ?_
      fun left hleft => ?_
    · cases boarded with
      | none => exact Ok.pure hstate
      | some b => exact alight_possible hroute htrain hbefore hcall (hboarded b rfl) hstate
    · refine Ok.bind (board_rides hsound hcall hboarded) fun next hnext => ?_
      exact ih hrest hnext hleft

end Scan

/-! ## One round -/

section Rounds

variable [LawfulScalar α]
  (hsound : ∀ {id route}, router.timetable.route id = .ok route → ∃ n, Route.Sound n route)

include hsound

theorem rideRoute_possible (hbefore : router.AllPossible departure rides before)
    (hstate : router.AllPossible departure (rides + 1) state.best) (queued : RouteId × Nat) :
    Ok (router.rideRoute before state queued) fun next =>
      router.AllPossible departure (rides + 1) next.best := by
  unfold rideRoute
  refine Ok.bind (Ok.self _) fun route hroute => Ok.bind (Ok.self _) fun train htrain => ?_
  obtain ⟨n, hroute_sound⟩ := hsound hroute
  exact rideCalls_possible hroute_sound hroute htrain hbefore _ rfl (fun _ hb => by cases hb) hstate

omit [LawfulScalar α] hsound in
theorem walkAll_possible (hstate : router.AllPossible departure rides state.best) :
    Ok (router.walkAll state) fun next => router.AllPossible departure rides next.best := by
  unfold walkAll
  have hsources : ∀ stop ∈ state.improved.mergeSort (fun a b => a.raw ≤ b.raw),
      Ok (do return (stop, ← fetch state.best stop.index) : Checked (StopId × Arrival α))
        fun source => source.2 ∈ state.best :=
    fun stop _ => Ok.bind (Ok.fetch _ _) fun label hlabel => Ok.pure (Array.mem_of_getElem? hlabel)
  refine Ok.bind (Ok.mapM hsources) fun sources ⟨_, hknown⟩ => ?_
  refine Ok.foldlM_keeps hstate fun (stop, label) hsource walked hwalked => ?_
  obtain ⟨hpossible, hlegs⟩ := hstate label (hknown (stop, label) hsource)
  refine Ok.bind (Ok.self _) fun transfers htransfers => ?_
  refine Ok.foldlM_keeps hwalked fun transfer htransfer next hnext => ?_
  refine Ok.bind (Ok.trivial _) fun known _ => ?_
  split
  · exact Ok.pure (hnext.improve (.walk hpossible htransfers htransfer) hlegs _)
  · exact Ok.pure hnext

/-- One more round is one more ride. -/
theorem round_possible (marked : List StopId)
    (hbefore : router.AllPossible departure rides before) :
    Ok (router.round marked before) fun next =>
      router.AllPossible departure (rides + 1) next.best := by
  unfold round
  refine Ok.bind (Ok.trivial _) fun queue _ => ?_
  refine Ok.bind
    (Ok.foldlM_keeps (P := fun state => router.AllPossible departure (rides + 1) state.best)
      (hbefore.mono (Nat.le_succ rides)) fun queued _ state hstate => ?_) fun ridden hridden => ?_
  · exact rideRoute_possible hsound hbefore hstate queued
  · exact walkAll_possible hridden

/-! ## All rounds -/

theorem rounds_possible (left : Nat) :
    ∀ {done : Nat} {marked : List StopId} {best : Array (Arrival α)},
      router.AllPossible departure done best →
        Ok (router.rounds left done marked best) fun result =>
          router.AllPossible departure (done + left) result.1 := by
  induction left with
  | zero => exact fun hbest => Ok.pure hbest
  | succ left ih =>
    intro done marked best hbest
    unfold rounds
    split
    · exact Ok.pure (hbest.mono (Nat.le_add_right done _))
    · refine Ok.bind (round_possible hsound marked hbest) fun next hnext => ?_
      rw [Nat.add_comm left 1, ← Nat.add_assoc]
      exact ih hnext

/-- Every arrival of a tree comes about by walks and rides, by at most as many rides as there may
be rounds. -/
theorem possible_of_tree (access : List (NearStop α)) (departure : α) :
    Ok (router.tree access departure) fun tree =>
      router.AllPossible departure router.parameters.maxRounds tree.arrivals := by
  unfold tree
  refine Ok.bind (Ok.foldlM_keeps (P := fun state => router.AllPossible departure 0 state.best)
    (fun label hlabel => ?_) fun a _ state hstate => ?_) fun state hstate => ?_
  · rw [(Array.mem_replicate.mp hlabel).2]
    exact ⟨.unreached, Nat.le_refl 0⟩
  · refine Ok.bind (Ok.trivial _) fun known _ => ?_
    dsimp only
    split
    · exact Ok.pure (hstate.improve (.enter a.walkTime) (Nat.le_refl 0) a.stop)
    · exact Ok.pure hstate
  · refine Ok.bind (rounds_possible hsound _ hstate) fun result hresult => Ok.pure ?_
    rw [← Nat.zero_add router.parameters.maxRounds]
    exact hresult

end Rounds

end TransitRouter

end ZoneSkims
