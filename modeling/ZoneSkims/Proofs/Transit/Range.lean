import ZoneSkims.Proofs.Transit.Forward
import ZoneSkims.Proofs.Transit.Optimality

/-!
# Departures of a window

A rider who may leave at any time of a window is served by the departures that exactly catch a trip:
whoever leaves at another time can leave at the next one of these, and make the same journey. Times
are kept without rounding, so that a trip is caught at the time at which it leaves.

* `Journey.starts`: the same journey when leaving at another time.
* `Catches`: a departure exactly catches a trip.
* `TransitRouter.departures_spec`, `TransitRouter.trees_spec`: these departures, and no others.
* `TransitRouter.Earliest`: what the arrivals of one departure are.
* `TransitRouter.exists_tree_of_catches`: leaving later is no later, while a trip can be caught.
* `TransitRouter.trees_lose_nothing`: the main result.
-/

namespace ZoneSkims

variable {α : Type} [Scalar α]

/-! ## The same journey at another time -/

section Journey

variable {timetable : Timetable α} {access : List (NearStop α)} {departure time : α}
  {a : NearStop α} {legs : List (Leg α)} {leg : Leg α} {stop : StopId}

theorem Journey.of_nil (h : Journey timetable access departure a [] stop time) :
    stop = a.stop ∧ time = departure + a.walkTime := by
  generalize hlegs : ([] : List (Leg α)) = all at h
  cases h with
  | enter _ => exact ⟨rfl, rfl⟩
  | ride => simp at hlegs
  | rideAndWalk => simp at hlegs

/-- The first ride starts at the stop that was walked to. Whoever leaves at another time and catches
it can make the same journey. -/
theorem Journey.starts (h : Journey timetable access departure a (leg :: legs) stop time) :
    (∃ target, leg.Runs timetable a.stop target ∧ leg.ready = departure + a.walkTime) ∧
      ∀ other, other + a.walkTime ≤ leg.departure → Journey timetable access other a
        ({ leg with ready := other + a.walkTime } :: legs) stop time := by
  generalize hall : leg :: legs = all at h
  induction h generalizing legs with
  | enter _ => cases hall
  | @ride before last source target time hbefore hruns hready hwalk ih =>
    cases before with
    | nil =>
      obtain ⟨rfl, rfl⟩ := List.cons.inj hall
      obtain ⟨rfl, rfl⟩ := hbefore.of_nil
      exact ⟨⟨_, hruns, hready⟩, fun other hcatch =>
        .ride (.enter hbefore.mem_access) { hruns with catches := hcatch } rfl hwalk⟩
    | cons first rest =>
      obtain ⟨rfl, rfl⟩ := List.cons.inj hall
      obtain ⟨hfirst, hother⟩ := ih rfl
      exact ⟨hfirst, fun other hcatch => .ride (hother other hcatch) hruns hready hwalk⟩
  | @rideAndWalk before last source target time transfer transfers hbefore hruns hready hwalk
      htransfers htransfer ih =>
    cases before with
    | nil =>
      obtain ⟨rfl, rfl⟩ := List.cons.inj hall
      obtain ⟨rfl, rfl⟩ := hbefore.of_nil
      exact ⟨⟨_, hruns, hready⟩, fun other hcatch => .rideAndWalk (.enter hbefore.mem_access)
        { hruns with catches := hcatch } rfl hwalk htransfers htransfer⟩
    | cons first rest =>
      obtain ⟨rfl, rfl⟩ := List.cons.inj hall
      obtain ⟨hfirst, hother⟩ := ih rfl
      exact ⟨hfirst, fun other hcatch =>
        .rideAndWalk (hother other hcatch) hruns hready hwalk htransfers htransfer⟩

end Journey

/-! ## Departures that catch a trip -/

theorem Window.contains_iff {window : Window α} {time : α} :
    window.contains time = true ↔ window.start ≤ time ∧ time ≤ window.finish := by
  rw [contains, Bool.and_eq_true, decide_eq_true_iff, decide_eq_true_iff]

theorem Window.isFinite_of_contains [LawfulScalar α] {window : Window α} {time : α}
    (hvalid : window.isValid = true) (h : window.contains time = true) :
    Scalar.isFinite time = true := by
  rw [isValid, Bool.and_eq_true, Bool.and_eq_true] at hvalid
  obtain ⟨hstart, hfinish⟩ := contains_iff.mp h
  exact Scalar.isFinite_of_between hvalid.1.1 hstart hfinish hvalid.1.2

/-- Whoever leaves at the time walks to the stop and is there when a trip leaves. -/
def CatchesAt (timetable : Timetable α) (a : NearStop α) (time : α) : Prop :=
  ∃ (id : RouteId) (route : Route α) (position : Nat) (call : Call α) (trip : Nat) (departure : α),
    timetable.route id = .ok route ∧ route.calls[position]? = some call ∧ call.stop = a.stop ∧
      route.departureAt trip position = .ok departure ∧ departure - a.walkTime = time

/-- Leaving at the time exactly catches a trip at one of the stops near the place of departure. -/
def Catches (timetable : Timetable α) (access : List (NearStop α)) (time : α) : Prop :=
  ∃ a ∈ access, CatchesAt timetable a time

theorem Leg.Runs.catchesAt {timetable : Timetable α} {leg : Leg α} {a : NearStop α}
    {target : StopId} (h : leg.Runs timetable a.stop target) :
    CatchesAt timetable a (leg.departure - a.walkTime) := by
  obtain ⟨call, hcall, hstop⟩ := h.boards
  exact ⟨leg.id, leg.route, leg.boarding, call, leg.trip, leg.departure, h.route, hcall, hstop,
    h.departure, rfl⟩

namespace TransitRouter

variable {router : TransitRouter α} {window : Window α} {access : List (NearStop α)}

theorem catchTimes_spec {id : RouteId} {route : Route α} {position : Nat}
    (hroute : router.timetable.route id = .ok route) (hposition : position < route.stopCount)
    (a : NearStop α) :
    Returns (router.catchTimes window a (id, position)) fun times => ∀ time, time ∈ times ↔
      (∃ trip departure, route.departureAt trip position = .ok departure ∧
        departure - a.walkTime = time) ∧ window.contains time = true := by
  unfold catchTimes
  refine Returns.bind (Returns.of_eq (P := (· = route)) hroute rfl) ?_
  rintro route rfl
  refine Returns.bind (Returns.mapM (Q := fun trip time => ∃ departure,
    route.departureAt trip position = .ok departure ∧ departure - a.walkTime = time)
    fun trip htrip => ?_) fun times ⟨hsound, hcomplete⟩ => Returns.pure fun time => ?_
  · have hdeparture : route.departureAt trip position = .ok _ :=
      Route.departureAt_eq_ok.mpr ⟨_, _, Array.getElem?_eq_getElem (List.mem_range.mp htrip),
        Array.getElem?_eq_getElem hposition, rfl⟩
    exact ⟨_, bind_eq_ok.mpr ⟨_, hdeparture, rfl⟩, _, hdeparture, rfl⟩
  · rw [List.mem_filter]
    refine and_congr_left fun _ => ⟨fun hmem => ?_, ?_⟩
    · obtain ⟨trip, -, htime⟩ := hsound time hmem
      exact ⟨trip, htime⟩
    · rintro ⟨trip, departure, hdeparture, rfl⟩
      obtain ⟨start, -, hstart, -⟩ := Route.departureAt_eq_ok.mp hdeparture
      obtain ⟨time, hmem, departure', hdeparture', rfl⟩ :=
        hcomplete trip (List.mem_range.mpr (Array.getElem?_eq_some_iff.mp hstart).1)
      cases hdeparture.symm.trans hdeparture'
      exact hmem

/-- An element that is equal to the one before is in the list still. -/
theorem mem_dropRepeats (heq : ∀ x y : α, (x == y) = true → x = y) {time : α} :
    ∀ {times : List α}, time ∈ dropRepeats times ↔ time ∈ times
  | [] => Iff.rfl
  | [_] => Iff.rfl
  | x :: y :: rest => by
    have ih : ∀ {time}, time ∈ dropRepeats (y :: rest) ↔ time ∈ y :: rest :=
      mem_dropRepeats heq
    rw [dropRepeats, List.mem_cons, ← ih]
    cases hrest : dropRepeats (y :: rest) with
    | nil => rw [List.mem_singleton, or_iff_left List.not_mem_nil]
    | cons z zs =>
      dsimp only
      split
      · next hrepeat =>
        obtain rfl := heq x z hrepeat
        exact ⟨.inr, fun h => h.elim (fun h => h ▸ List.mem_cons_self) (fun h => h)⟩
      · rw [List.mem_cons]

/-- The times at one stop, over all positions at which it is served. -/
theorem stopTimes_spec (htimetable : router.timetable.Sound) {a : NearStop α}
    (ha : router.timetable.contains a.stop = true) :
    Returns (do
      let served ← router.timetable.servedAt a.stop
      return (← served.mapM (router.catchTimes window a)).flatten : Checked (List α)) fun times =>
        ∀ time, time ∈ times ↔
          CatchesAt router.timetable a time ∧ window.contains time = true := by
  refine Returns.bind (htimetable.servedAt ha) fun served hserved => ?_
  refine Returns.bind (Returns.mapM (Q := fun entry times => ∃ route call,
    router.timetable.route entry.1 = .ok route ∧ route.calls[entry.2]? = some call ∧
      call.stop = a.stop ∧ ∀ time, time ∈ times ↔
        (∃ trip departure, route.departureAt trip entry.2 = .ok departure ∧
          departure - a.walkTime = time) ∧ window.contains time = true) ?_)
    fun lists ⟨hsound, hcomplete⟩ => Returns.pure fun time => ?_
  · rintro ⟨id, position⟩ hentry
    obtain ⟨route, call, hroute, hcall, hstop⟩ := (hserved id position).mp hentry
    obtain ⟨times, htimes, hspec⟩ := catchTimes_spec hroute
      (Array.getElem?_eq_some_iff.mp hcall).1 a
    exact ⟨times, htimes, route, call, hroute, hcall, hstop, hspec⟩
  · rw [List.mem_flatten]
    constructor
    · rintro ⟨times, htimes, hmem⟩
      obtain ⟨entry, -, route, call, hroute, hcall, hstop, hspec⟩ := hsound times htimes
      obtain ⟨⟨trip, departure, hdeparture, htime⟩, hwindow⟩ := (hspec time).mp hmem
      exact ⟨⟨entry.1, route, entry.2, call, trip, departure, hroute, hcall, hstop, hdeparture,
        htime⟩, hwindow⟩
    · rintro ⟨⟨id, route, position, call, trip, departure, hroute, hcall, hstop, hdeparture,
        htime⟩, hwindow⟩
      obtain ⟨times, htimes, route', call', hroute', -, -, hspec⟩ :=
        hcomplete (id, position) ((hserved id position).mpr ⟨route, call, hroute, hcall, hstop⟩)
      cases hroute.symm.trans hroute'
      exact ⟨times, htimes, (hspec time).mpr ⟨⟨trip, departure, hdeparture, htime⟩, hwindow⟩⟩

/-- The times at all stops, before they are sorted. -/
theorem candidates_spec (htimetable : router.timetable.Sound)
    (haccess : ∀ a ∈ access, router.timetable.contains a.stop = true) (window : Window α) :
    Returns (access.mapM fun a => do
      let served ← router.timetable.servedAt a.stop
      return (← served.mapM (router.catchTimes window a)).flatten : Checked (List (List α)))
      fun lists => ∀ time, time ∈ lists.flatten ↔
        Catches router.timetable access time ∧ window.contains time = true := by
  refine (Returns.mapM fun a ha => stopTimes_spec htimetable (haccess a ha)).mono
    fun lists ⟨hsound, hcomplete⟩ time => ?_
  rw [List.mem_flatten]
  constructor
  · rintro ⟨times, htimes, hmem⟩
    obtain ⟨a, ha, hspec⟩ := hsound times htimes
    obtain ⟨hcatch, hwindow⟩ := (hspec time).mp hmem
    exact ⟨⟨a, ha, hcatch⟩, hwindow⟩
  · rintro ⟨⟨a, ha, hcatch⟩, hwindow⟩
    obtain ⟨times, htimes, hspec⟩ := hcomplete a ha
    exact ⟨times, htimes, (hspec time).mpr ⟨hcatch, hwindow⟩⟩

/-- The departures are the times of the window that catch a trip. -/
theorem departures_spec (heq : ∀ x y : α, (x == y) = true → x = y)
    (htimetable : router.timetable.Sound)
    (haccess : ∀ a ∈ access, router.timetable.contains a.stop = true) :
    Returns (router.departures access window) fun times => ∀ time, time ∈ times ↔
      Catches router.timetable access time ∧ window.contains time = true := by
  unfold departures
  refine Returns.bind (candidates_spec htimetable haccess window)
    fun lists hlists => Returns.pure fun time => ?_
  rw [mem_dropRepeats heq, List.mem_mergeSort]
  exact hlists time

theorem departure_of_tree {departure : α} {tree : TransitTree α}
    (h : router.tree access departure = .ok tree) : tree.departure = departure := by
  obtain ⟨_, -, h⟩ := bind_eq_ok.mp h
  obtain ⟨_, -, h⟩ := bind_eq_ok.mp h
  cases h
  rfl

/-- There is a tree for each departure of the window that catches a trip, and no other tree. -/
theorem trees_spec [LawfulScalar α] {isTrain : Route α → Bool}
    (heq : ∀ x y : α, (x == y) = true → x = y) (hrouter : router.Sound isTrain)
    (haccess : ∀ a ∈ access, router.timetable.contains a.stop = true) (window : Window α) :
    Returns (router.trees access window) fun trees =>
      (∀ tree ∈ trees, window.contains tree.departure = true ∧
        router.tree access tree.departure = .ok tree) ∧
      ∀ time, Catches router.timetable access time → window.contains time = true →
        ∃ tree ∈ trees, router.tree access time = .ok tree := by
  unfold trees
  refine Returns.bind (departures_spec heq hrouter.timetable haccess) fun times htimes => ?_
  refine (Returns.mapM (Q := fun time tree => time ∈ times ∧ router.tree access time = .ok tree)
    fun time htime => ?_).mono fun trees ⟨hsound, hcomplete⟩ => ⟨fun tree htree => ?_, ?_⟩
  · obtain ⟨tree, htree⟩ := exists_tree hrouter haccess time
    exact ⟨tree, htree, htime, htree⟩
  · obtain ⟨time, -, htime, hmade⟩ := hsound tree htree
    rw [departure_of_tree hmade]
    exact ⟨((htimes time).mp htime).2, hmade⟩
  · intro time hcatch hwindow
    obtain ⟨tree, htree, -, hmade⟩ := hcomplete time ((htimes time).mpr ⟨hcatch, hwindow⟩)
    exact ⟨tree, htree, hmade⟩

/-! ## Arrivals of one departure -/

/-- What the arrivals of a departure are, as far as journeys tell. -/
structure Earliest (router : TransitRouter α) (access : List (NearStop α)) (departure : α)
    (tree : TransitTree α) : Prop where
  exists_journey : ∀ {stop label}, tree.arrival? stop = some label →
    ∃ a legs, Journey router.timetable access departure a legs stop label.time ∧
      legs.length = label.legs ∧ label.legs ≤ router.parameters.maxTransfers + 1
  exists_arrival : ∀ {a legs stop time},
    Journey router.timetable access departure a legs stop time →
      legs.length ≤ router.parameters.maxTransfers + 1 → Scalar.isFinite time = true →
        ∃ label, tree.arrival? stop = some label ∧ label.time ≤ time
  fewest : ∀ {a legs stop time label}, Journey router.timetable access departure a legs stop time →
    tree.arrival? stop = some label → legs.length < label.legs → label.time < time

/-- Waits may be of any length, and nobody walks between rides. -/
structure RidesOnly (router : TransitRouter α) (isTrain : Route α → Bool)
    (access : List (NearStop α)) : Prop where
  sound : router.Sound isTrain
  stopCount_lt : router.timetable.stopCount < 2 ^ 32 - 1
  patient : router.parameters.maxTransferWait = Scalar.infinity
  contained : ∀ a ∈ access, router.timetable.contains a.stop = true
  isFinite_walkTime : ∀ a ∈ access, Scalar.isFinite a.walkTime = true
  no_transfers : ∀ stop transfers, router.timetable.transfersFrom stop = .ok transfers →
    transfers = []

variable [LawfulScalar α] {isTrain : Route α → Bool} {departure later : α}
  {tree laterTree : TransitTree α} {stop : StopId} {label : Arrival α}

theorem RidesOnly.earliest (h : router.RidesOnly isTrain access)
    (hdeparture : Scalar.isFinite departure = true)
    (habove : ∀ a ∈ access, -Scalar.infinity < departure + a.walkTime) :
    Returns (router.tree access departure) (router.Earliest access departure) := by
  obtain ⟨tree, htree, hwithin, hlow, hfewest⟩ := within_of_tree h.sound h.patient h.contained
    hdeparture h.isFinite_walkTime habove h.stopCount_lt
  obtain ⟨tree', htree', hrounds, hmade⟩ :=
    made_of_tree h.sound (h.patient ▸ Scalar.isNumber_infinity) departure h.contained
  cases htree.symm.trans htree'
  refine ⟨tree, htree, ?_, ?_, ?_⟩
  · intro stop label hlabel
    obtain ⟨hknown, hreached⟩ := Option.filter_eq_some_iff.mp hlabel
    obtain ⟨a, legs, hjourney, htotals, hlegs, -⟩ := hmade stop label hknown hreached
    exact ⟨a, legs, hjourney, htotals.legCount.symm,
      Nat.le_trans hlegs (Nat.le_trans hrounds (Nat.min_le_left _ _))⟩
  · intro a legs stop time hjourney hlength hfinite
    obtain ⟨label, hlabel, hle⟩ :=
      hwithin a legs stop time hjourney (hjourney.unwalked h.no_transfers) hlength
    have hreached : label.isReached = true := LawfulScalar.isFinite_iff.mpr
      ⟨hlow stop label hlabel, Scalar.lt_of_le_of_lt hle (Scalar.lt_infinity_of_isFinite hfinite)⟩
    exact ⟨label, Option.filter_eq_some_iff.mpr ⟨hlabel, hreached⟩, hle⟩
  · intro a legs stop time label hjourney hlabel hlt
    exact hfewest a legs stop time label hjourney (hjourney.unwalked h.no_transfers)
      (Option.filter_eq_some_iff.mp hlabel).1 hlt

/-- Whoever leaves later and still catches the first ride of a journey is no later, and does not
come on foot either. -/
theorem Earliest.leave_later (htree : router.Earliest access departure tree)
    (hlater : router.Earliest access later laterTree)
    (hwalks : ∀ a ∈ access, Scalar.isFinite a.walkTime = true) (hle : departure ≤ later)
    (hlabel : tree.arrival? stop = some label) {a : NearStop α} {leg : Leg α} {legs : List (Leg α)}
    (hjourney : Journey router.timetable access departure a (leg :: legs) stop label.time)
    (hlength : (leg :: legs).length = label.legs)
    (hmax : label.legs ≤ router.parameters.maxTransfers + 1)
    (hcatch : later + a.walkTime ≤ leg.departure) :
    ∃ label', laterTree.arrival? stop = some label' ∧ 0 < label'.legs ∧
      label'.time ≤ label.time := by
  obtain ⟨label', hlabel', hle'⟩ := hlater.exists_arrival (hjourney.starts.2 later hcatch)
    (hlength ▸ hmax) (Option.filter_eq_some_iff.mp hlabel).2
  refine ⟨label', hlabel', Nat.pos_of_ne_zero fun hzero => ?_, hle'⟩
  -- Who leaves earlier would come on foot no later than that, and the ride beats any walk.
  obtain ⟨b, legs', hwalk, hlegs', -⟩ := hlater.exists_journey hlabel'
  obtain rfl : legs' = [] := List.eq_nil_of_length_eq_zero (hlegs'.trans hzero)
  obtain ⟨rfl, htime⟩ := hwalk.of_nil
  have hearlier : label.time < departure + b.walkTime := htree.fewest (.enter hwalk.mem_access)
    hlabel (hlength ▸ Nat.zero_lt_succ _)
  have hlate := LawfulScalar.add_le_add_right (hwalks b hwalk.mem_access) hle
  rw [← htime] at hlate
  exact Scalar.not_lt_of_le (Scalar.le_trans hlate hle') hearlier

/-! ## Exact times -/

section Exact

variable {K : Type} [Field K] [LinearOrder K] [IsStrictOrderedRing K]
  {router : TransitRouter (Exact K)} {isTrain : Route (Exact K) → Bool}
  {access : List (NearStop (Exact K))} {window : Window (Exact K)} {departure time : Exact K}
  {tree : TransitTree (Exact K)} {trees : List (TransitTree (Exact K))} {stop : StopId}
  {label : Arrival (Exact K)} {a : NearStop (Exact K)} {leg : Leg (Exact K)}

theorem RidesOnly.exists_earliest (h : router.RidesOnly isTrain access)
    (hdeparture : Scalar.isFinite departure = true) :
    Returns (router.tree access departure) (router.Earliest access departure) :=
  h.earliest hdeparture fun a ha => (LawfulScalar.isFinite_iff.mp
    (Exact.isFinite_add hdeparture (h.isFinite_walkTime a ha))).1

/-- A journey starts when its first ride can be caught, or earlier. -/
theorem RidesOnly.le_catchTime (h : router.RidesOnly isTrain access)
    (hdeparture : Scalar.isFinite departure = true) {legs : List (Leg (Exact K))}
    {time : Exact K}
    (hjourney : Journey router.timetable access departure a (leg :: legs) stop time) :
    Scalar.isFinite leg.departure = true ∧ departure ≤ leg.departure - a.walkTime ∧
      Catches router.timetable access (leg.departure - a.walkTime) := by
  obtain ⟨⟨target, hruns, hready⟩, -⟩ := hjourney.starts
  have hfinite :=
    (h.sound.timetable.route_sound hruns.route).isFinite_departureAt hruns.departure
  have hcatch := hruns.catches
  rw [hready] at hcatch
  exact ⟨hfinite, (Exact.add_le_iff hdeparture (h.isFinite_walkTime a hjourney.mem_access)
    hfinite).mp hcatch, a, hjourney.mem_access, hruns.catchesAt⟩

/-- As long as a trip can be caught in a window, some departure of the window leads to a stop that
is reached by vehicle, without being later there. -/
theorem RidesOnly.exists_tree_of_catches (h : router.RidesOnly isTrain access)
    (hvalid : window.isValid = true) (htrees : router.trees access window = .ok trees)
    (hstart : window.start ≤ departure) (htree : router.tree access departure = .ok tree)
    (hlabel : tree.arrival? stop = some label) (hlegs : 0 < label.legs)
    (htime : Catches router.timetable access time) (hle : departure ≤ time)
    (hfinish : time ≤ window.finish) :
    ∃ laterTree ∈ trees, departure ≤ laterTree.departure ∧
      ∃ label', laterTree.arrival? stop = some label' ∧ 0 < label'.legs ∧
        label'.time ≤ label.time := by
  have hdeparture := Window.isFinite_of_contains hvalid
    (Window.contains_iff.mpr ⟨hstart, Scalar.le_trans hle hfinish⟩)
  obtain ⟨tree', htree', hearliest⟩ := h.exists_earliest hdeparture
  cases htree.symm.trans htree'
  obtain ⟨a, legs, hjourney, hlength, hmax⟩ := hearliest.exists_journey hlabel
  cases legs with
  | nil => exact absurd hlength (Nat.ne_of_lt hlegs)
  | cons leg legs =>
    obtain ⟨hfinite, hcaught, hcatches⟩ := h.le_catchTime hdeparture hjourney
    obtain ⟨trees', htrees', -, hcomplete⟩ :=
      trees_spec (fun _ _ => Exact.eq_of_beq) h.sound h.contained window
    cases htrees.symm.trans htrees'
    -- The same journey can be made when leaving at any time up to its own.
    have hleave : ∀ later, Catches router.timetable access later → departure ≤ later →
        later ≤ window.finish → later ≤ leg.departure - a.walkTime →
        ∃ laterTree ∈ trees, departure ≤ laterTree.departure ∧
          ∃ label', laterTree.arrival? stop = some label' ∧ 0 < label'.legs ∧
            label'.time ≤ label.time := by
      intro later hcatch hlater hwindow hbefore
      have hcontains := Window.contains_iff.mpr ⟨Scalar.le_trans hstart hlater, hwindow⟩
      have hlaterFinite := Window.isFinite_of_contains hvalid hcontains
      obtain ⟨laterTree, hmem, hlaterTree⟩ := hcomplete later hcatch hcontains
      obtain ⟨other, hother, hlaterEarliest⟩ := h.exists_earliest hlaterFinite
      cases hlaterTree.symm.trans hother
      refine ⟨laterTree, hmem, departure_of_tree hlaterTree ▸ hlater, ?_⟩
      exact hearliest.leave_later hlaterEarliest h.isFinite_walkTime hlater hlabel hjourney hlength
        hmax ((Exact.add_le_iff hlaterFinite (h.isFinite_walkTime a hjourney.mem_access)
          hfinite).mpr hbefore)
    have hnumber := Scalar.isNumber_right hcaught
    rcases LawfulScalar.le_total hnumber (Scalar.isNumber_right hle) with hfirst | hlast
    · exact hleave _ hcatches hcaught (Scalar.le_trans hfirst hfinish) (Scalar.le_refl hnumber)
    · exact hleave time htime hle hfinish hlast

/-- Without a limit on waits and without transfers, the trees of a window lose nothing. Whatever
stop is reached by vehicle when leaving at a time of the window, one of the trees leaves no earlier
and is there no later, unless all journeys that are there as early start with a vehicle that is
caught only after the window. -/
theorem trees_lose_nothing {draft : TimetableDraft (Exact K)} {timetable : Timetable (Exact K)}
    {router : TransitRouter (Exact K)} (parameters : RouterParameters (Exact K))
    (isTrain : Route (Exact K) → Bool) (access : List (NearStop (Exact K)))
    (window : Window (Exact K)) (hdraft : draft.Drafted) (hbuild : draft.build = .ok timetable)
    (hstops : timetable.stopCount < 2 ^ 32 - 1) (hroutes : timetable.routeCount < 2 ^ 32 - 1)
    (hnew : TransitRouter.new timetable parameters isTrain = .ok router)
    (hpatient : parameters.maxTransferWait = Scalar.infinity)
    (hnone : ∀ stop transfers, timetable.transfersFrom stop = .ok transfers → transfers = [])
    (haccess : ∀ a ∈ access, timetable.contains a.stop = true)
    (hwalks : ∀ a ∈ access, Scalar.isFinite a.walkTime = true)
    (hvalid : window.isValid = true) :
    ∃ trees, router.trees access window = .ok trees ∧
      ∀ departure, window.contains departure = true →
        ∃ tree, router.tree access departure = .ok tree ∧
          ∀ stop label, tree.arrival? stop = some label → 0 < label.legs →
            (∃ later ∈ trees, departure ≤ later.departure ∧
              ∃ label', later.arrival? stop = some label' ∧ label'.time ≤ label.time) ∨
            ∀ a legs, Journey timetable access departure a legs stop label.time →
              ∃ leg rest, legs = leg :: rest ∧ window.finish < leg.departure - a.walkTime := by
  have htimetable := hdraft.sound_build hbuild (by omega) (by omega)
  obtain ⟨hrouter, -, rfl, rfl⟩ := sound_of_new htimetable hnew
  have hrides : router.RidesOnly isTrain access :=
    ⟨hrouter, hstops, hpatient, haccess, hwalks, hnone⟩
  obtain ⟨trees, htrees, -⟩ :=
    trees_spec (fun _ _ => Exact.eq_of_beq) hrouter haccess window
  refine ⟨trees, htrees, fun departure hwindow => ?_⟩
  have hdeparture := Window.isFinite_of_contains hvalid hwindow
  obtain ⟨tree, htree, hearliest⟩ := hrides.exists_earliest hdeparture
  refine ⟨tree, htree, fun stop label hlabel hlegs => or_iff_not_imp_left.mpr fun hnot => ?_⟩
  intro a legs hjourney
  cases legs with
  | nil => exact absurd (hearliest.fewest hjourney hlabel hlegs) (Scalar.lt_irrefl _)
  | cons leg legs =>
    obtain ⟨hfinite, hcaught, hcatches⟩ := hrides.le_catchTime hdeparture hjourney
    refine ⟨leg, legs, rfl, Scalar.lt_of_not_le (Scalar.isNumber_right hcaught)
      (Scalar.isNumber_right (Window.contains_iff.mp hwindow).2) fun hfinish => hnot ?_⟩
    obtain ⟨later, hmem, hle, label', hlabel', -, hle'⟩ := hrides.exists_tree_of_catches hvalid
      htrees (Window.contains_iff.mp hwindow).1 htree hlabel hlegs hcatches hcaught hfinish
    exact ⟨later, hmem, hle, label', hlabel', hle'⟩

end Exact

end TransitRouter

/-! ## Two lines -/

open Exact

/-- A line between the first two stops, and a later one from the first stop to the third. -/
noncomputable def twoLines : Except (TransitError (Exact ℚ)) (TimetableDraft (Exact ℚ)) := do
  let draft := (TimetableDraft.empty.addStop ⟨finite 0, finite 0⟩).2
  let draft := (draft.addStop ⟨finite 500, finite 0⟩).2
  let draft := (draft.addStop ⟨finite 0, finite 8000⟩).2
  let (_, draft) ← draft.addRoute "A" .bus
    [⟨⟨0⟩, finite 0, finite 0, none⟩, ⟨⟨1⟩, finite 300, finite 300, some (finite 500)⟩] [finite 500]
  let (_, draft) ← draft.addRoute "B" .bus
    [⟨⟨0⟩, finite 0, finite 0, none⟩, ⟨⟨2⟩, finite 600, finite 600, some (finite 8000)⟩]
    [finite 2000]
  return draft

/-- The timetable of the two lines. -/
noncomputable def twoLinesTimetable : Timetable (Exact ℚ) :=
  { stops := #[⟨finite 0, finite 0⟩, ⟨finite 500, finite 0⟩, ⟨finite 0, finite 8000⟩]
    routes :=
      #[{ line := "A", mode := .bus
          calls := #[⟨⟨0⟩, finite 0, finite 0, none⟩,
            ⟨⟨1⟩, finite 300, finite 300, some (finite 500)⟩]
          departures := #[finite 500], mileage := #[0, 0 + finite 500] },
        { line := "B", mode := .bus
          calls := #[⟨⟨0⟩, finite 0, finite 0, none⟩,
            ⟨⟨2⟩, finite 600, finite 600, some (finite 8000)⟩]
          departures := #[finite 2000], mileage := #[0, 0 + finite 8000] }]
    serving := #[#[(⟨0⟩, 0), (⟨1⟩, 0)], #[(⟨0⟩, 1)], #[(⟨1⟩, 1)]]
    transfers := #[#[], #[], #[]] }

/-- The limit on waits is lifted. -/
noncomputable def unhurried : RouterParameters (Exact ℚ) :=
  { RouterParameters.standard with maxTransferWait := Scalar.infinity }

noncomputable def twoLinesRouter : TransitRouter (Exact ℚ) :=
  { timetable := twoLinesTimetable, parameters := unhurried, isTrain := #[false, false] }

theorem drafted_twoLines :
    ∃ draft : TimetableDraft (Exact ℚ), draft.Drafted ∧ draft.build = .ok twoLinesTimetable := by
  have hdrafted : Ok twoLines TimetableDraft.Drafted := by
    have hstops := TimetableDraft.Drafted.empty.addStop (α := Exact ℚ) ⟨finite 0, finite 0⟩
      |>.addStop ⟨finite 500, finite 0⟩ |>.addStop ⟨finite 0, finite 8000⟩
    refine Ok.bind (Q := fun next => next.2.Drafted) (fun _ h => hstops.addRoute h) fun a ha => ?_
    refine Ok.bind (Q := fun next => next.2.Drafted) (fun _ h => ha.addRoute h) fun b hb => ?_
    exact Ok.pure hb
  refine ⟨_, hdrafted _ rfl, ?_⟩
  simp only [List.mergeSort_singleton]
  rfl

theorem new_twoLines :
    TransitRouter.new twoLinesTimetable unhurried (fun _ => false) = .ok twoLinesRouter :=
  TransitRouter.new_eq (by decide +kernel) (by simp [twoLinesTimetable])

theorem transfersFrom_twoLines (stop : StopId) (transfers : List (Transfer (Exact ℚ)))
    (h : twoLinesTimetable.transfersFrom stop = .ok transfers) : transfers = [] := by
  unfold Timetable.transfersFrom at h
  generalize stop.index = i at h
  rcases i with _ | _ | _ | i
  · cases h
    rfl
  · cases h
    rfl
  · cases h
    rfl
  · cases h

/-- The first two stops are near the place of departure. -/
def nearTwoLines : List (NearStop (Exact ℚ)) := [⟨⟨0⟩, finite 60⟩, ⟨⟨1⟩, finite 60⟩]

/-- The first line leaves in this window, and the second one after it. -/
def beforeSecondLine : Window (Exact ℚ) := ⟨finite 0, finite 700⟩

/-- Whoever wants to leave at 600 waits for the second line, and no tree of the window leaves as
late as that. -/
theorem trees_lose_nothing_twoLines : ∃ (draft : TimetableDraft (Exact ℚ))
    (trees : List (TransitTree (Exact ℚ))) (tree : TransitTree (Exact ℚ))
    (label : Arrival (Exact ℚ)), draft.Drafted ∧ draft.build = .ok twoLinesTimetable ∧
      twoLinesTimetable.stopCount < 2 ^ 32 - 1 ∧ twoLinesTimetable.routeCount < 2 ^ 32 - 1 ∧
      TransitRouter.new twoLinesTimetable unhurried (fun _ => false) = .ok twoLinesRouter ∧
      unhurried.maxTransferWait = Scalar.infinity ∧
      (∀ stop transfers, twoLinesTimetable.transfersFrom stop = .ok transfers → transfers = []) ∧
      (∀ a ∈ nearTwoLines, twoLinesTimetable.contains a.stop = true) ∧
      (∀ a ∈ nearTwoLines, Scalar.isFinite a.walkTime = true) ∧
      beforeSecondLine.isValid = true ∧
      twoLinesRouter.trees nearTwoLines beforeSecondLine = .ok trees ∧
      beforeSecondLine.contains (finite 600) = true ∧
      twoLinesRouter.tree nearTwoLines (finite 600) = .ok tree ∧
      tree.arrival? ⟨2⟩ = some label ∧ 0 < label.legs ∧
      ((∃ later ∈ trees, finite 600 ≤ later.departure ∧
          ∃ label', later.arrival? ⟨2⟩ = some label' ∧ label'.time ≤ label.time) ∨
        ∀ a legs, Journey twoLinesTimetable nearTwoLines (finite 600) a legs ⟨2⟩ label.time →
          ∃ leg rest, legs = leg :: rest ∧
            beforeSecondLine.finish < leg.departure - a.walkTime) := by
  obtain ⟨draft, hdraft, hbuild⟩ := drafted_twoLines
  have hvalid : beforeSecondLine.isValid = true := by decide +kernel
  have hwindow : beforeSecondLine.contains (finite 600) = true := by decide +kernel
  have hreached : ((twoLinesRouter.tree nearTwoLines (finite 600)).toOption.any fun tree =>
      decide (((tree.arrival? ⟨2⟩).any fun label => decide (0 < label.legs)) = true)) = true := by
    decide +kernel
  obtain ⟨trees, htrees, hnothing⟩ := TransitRouter.trees_lose_nothing unhurried (fun _ => false)
    nearTwoLines beforeSecondLine hdraft hbuild (by decide) (by decide) new_twoLines rfl
    transfersFrom_twoLines (by decide) (by decide) hvalid
  obtain ⟨tree, htree, hreaches⟩ := hnothing (finite 600) hwindow
  obtain ⟨tree', htree', hreached⟩ := exists_of_any hreached
  cases htree.symm.trans htree'
  obtain ⟨label, hlabel, hlegs⟩ := (Option.any_eq_true _ _).mp hreached
  have hlegs := of_decide_eq_true hlegs
  exact ⟨draft, trees, tree, label, hdraft, hbuild, by decide, by decide, new_twoLines, rfl,
    transfersFrom_twoLines, by decide, by decide, hvalid, htrees, hwindow, htree, hlabel, hlegs,
    hreaches ⟨2⟩ label hlabel hlegs⟩

end ZoneSkims
