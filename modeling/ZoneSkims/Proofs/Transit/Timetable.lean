import Mathlib.Algebra.Group.Nat.Defs
import ZoneSkims.Proofs.Outcome
import ZoneSkims.Proofs.Scalar.Laws
import ZoneSkims.Transit.Timetable

/-!
# Built timetables

A draft grows from the empty one by steps, and a timetable is built of it. Whatever the steps were,
the routes make sense, stops are served exactly where a route calls, and walks lead to stops.

* `TimetableDraft.Drafted`: the drafts that the steps of drafting can reach.
* `Route.Sound`, `Timetable.Sound`: what later proofs use of a route and of a timetable.
* `TimetableDraft.addNearTransfers_eq_ok_iff`: when walks between near stops are added, and which.
* `TimetableDraft.Drafted.sound`: every built timetable is sound, when ids suffice for its stops
  and routes.
-/

namespace ZoneSkims

variable {α : Type} [Scalar α]

/-! ## Drafts -/

/-- The draft is reached from the empty one. A step that fails leaves the draft as it was, so that
only the accepted ones count. -/
inductive TimetableDraft.Drafted : TimetableDraft α → Prop
  | empty : Drafted empty
  | addStop {draft : TimetableDraft α} (position : Coord α) :
      Drafted draft → Drafted (draft.addStop position).2
  | addRoute {draft next : TimetableDraft α} {line : String} {mode : Mode}
      {calls : List (Call α)} {departures : List α} {id : RouteId} :
      Drafted draft → draft.addRoute line mode calls departures = .ok (id, next) → Drafted next
  | addTransfer {draft next : TimetableDraft α} {source target : StopId} {walkTime : α} :
      Drafted draft → draft.addTransfer source target walkTime = .ok next → Drafted next
  | addNearTransfers {draft next : TimetableDraft α} {maxDistance walkSpeed beelineFactor : α}
      {count : Nat} :
      Drafted draft →
        draft.addNearTransfers maxDistance walkSpeed beelineFactor = .ok (count, next) →
          Drafted next

/-! ## Routes -/

/-- A call of a timetable with `n` stops, whose times are finite and not before the start. -/
structure Call.Sound (n : Nat) (call : Call α) : Prop where
  stop_lt : call.stop.index < n
  isFinite_arrival : Scalar.isFinite call.arrival = true
  isFinite_departure : Scalar.isFinite call.departure = true
  zero_le_arrival : 0 ≤ call.arrival
  arrival_le_departure : call.arrival ≤ call.departure

/-- The calls of a route are sound, follow each other in time, and are made by trips with finite
starts in ascending order. -/
structure Route.Sound (n : Nat) (route : Route α) : Prop where
  two_le_size : 2 ≤ route.calls.size
  call_sound : ∀ call ∈ route.calls.toList, call.Sound n
  departure_le_arrival :
    route.calls.toList.Pairwise fun call next => call.departure ≤ next.arrival
  isFinite_start : ∀ start ∈ route.departures.toList, Scalar.isFinite start = true
  sorted : route.departures.toList.Pairwise (· ≤ ·)
  size_mileage : route.mileage.size = route.calls.size

theorem Call.Sound.mono {n m : Nat} {call : Call α} (h : call.Sound n) (hnm : n ≤ m) :
    call.Sound m :=
  { h with stop_lt := Nat.lt_of_lt_of_le h.stop_lt hnm }

theorem Route.Sound.mono {n m : Nat} {route : Route α} (h : route.Sound n) (hnm : n ≤ m) :
    route.Sound m :=
  { h with call_sound := fun call hcall => (h.call_sound call hcall).mono hnm }

theorem requirePositive_eq_ok_iff {parameter : PositiveParameter} {value : α} :
    requirePositive parameter value = .ok () ↔ Scalar.isPositive value = true := by
  simp [requirePositive]

namespace TimetableDraft

omit [Scalar α] in
theorem lt_of_requireStop {draft : TimetableDraft α} {stop : StopId} {place : Coord α}
    (h : draft.requireStop stop = .ok place) : stop.index < draft.stops.size := by
  unfold requireStop at h
  split at h
  · next hplace => exact (Array.getElem?_eq_some_iff.mp hplace).1
  · cases h

/-- Accepted calls are sound and follow each other, from a time that is not negative on. -/
theorem sound_of_checkCalls [LawfulScalar α] {draft : TimetableDraft α}
    {refuse : RouteFault α → TransitError α} (calls : List (Call α)) :
    ∀ {position : Nat} {last : α} {places : List (Coord α)}, 0 ≤ last →
      draft.checkCalls refuse position last calls = .ok places →
        (∀ call ∈ calls, call.Sound draft.stops.size ∧ last ≤ call.arrival) ∧
          calls.Pairwise (fun call next => call.departure ≤ next.arrival) ∧
            places.length = calls.length := by
  induction calls with
  | nil =>
    intro position last places _ h
    cases h
    exact ⟨by simp, .nil, rfl⟩
  | cons call calls ih =>
    intro position last places hlast h
    unfold checkCalls at h
    obtain ⟨place, hplace, h⟩ := bind_eq_ok.mp h
    split at h
    · cases h
    · next htimes =>
      simp only [Bool.not_eq_true, Bool.not_eq_false', Bool.and_eq_true,
        decide_eq_true_eq] at htimes
      obtain ⟨⟨⟨harrival, hdeparture⟩, hle⟩, hstay⟩ := htimes
      split at h
      · cases h
      · obtain ⟨rest, hrest, h⟩ := bind_eq_ok.mp h
        cases h
        have hzero : 0 ≤ call.arrival := Scalar.le_trans hlast hle
        obtain ⟨hsound, hchain, hlength⟩ := ih (Scalar.le_trans hzero hstay) hrest
        refine ⟨?_, .cons (fun next hnext => (hsound next hnext).2) hchain, by simp [hlength]⟩
        intro c hc
        rcases List.mem_cons.mp hc with rfl | hc
        · exact ⟨⟨lt_of_requireStop hplace, harrival, hdeparture, hzero, hstay⟩, hle⟩
        · have hnext := (hsound c hc).2
          exact ⟨(hsound c hc).1, Scalar.le_trans hle (Scalar.le_trans hstay hnext)⟩

theorem length_runningSums (total : α) (xs : List α) :
    (runningSums total xs).length = xs.length + 1 := by
  induction xs generalizing total with
  | nil => rfl
  | cons x xs ih => simp [runningSums, ih]

theorem length_legLengths {calls : List (Call α)} {places : List (Coord α)}
    (h : places.length = calls.length) : (legLengths calls places).length = calls.length - 1 := by
  unfold legLengths
  split
  · next hall =>
    rw [List.filterMap_length_eq_length.mpr (by simpa using hall), List.length_drop]
  · simp [h]

/-- An accepted route is sound. -/
theorem sound_of_addRoute [LawfulScalar α] {draft next : TimetableDraft α} {line : String}
    {mode : Mode} {calls : List (Call α)} {departures : List α} {id : RouteId}
    (h : draft.addRoute line mode calls departures = .ok (id, next)) :
    ∃ route : Route α, route.Sound draft.stops.size ∧
      next = { draft with routes := draft.routes.push route } := by
  unfold addRoute at h
  split at h
  · cases h
  · next hsize =>
    obtain ⟨places, hplaces, h⟩ := bind_eq_ok.mp h
    split at h
    · cases h
    · next hfinite =>
      cases h
      have hzero : (0 : α) ≤ 0 :=
        Scalar.le_refl (Scalar.isNumber_of_isFinite LawfulScalar.isFinite_zero)
      obtain ⟨hsound, hchain, hlength⟩ := sound_of_checkCalls calls hzero hplaces
      have hstart : ∀ start ∈ departures, Scalar.isFinite start = true := by
        simpa using hfinite
      refine ⟨_, ?_, rfl⟩
      constructor
      · simpa using Nat.le_of_not_lt hsize
      · exact fun call hcall => (hsound call hcall).1
      · exact hchain
      · intro start hmem
        exact hstart start (List.mem_mergeSort.mp hmem)
      · exact Scalar.pairwise_mergeSort fun start hmem =>
          Scalar.isNumber_of_isFinite (hstart start hmem)
      · simp only [List.size_toArray, length_runningSums, length_legLengths hlength]
        omega

/-! ## Walks -/

theorem eq_of_addTransfer {draft next : TimetableDraft α} {source target : StopId} {walkTime : α}
    (h : draft.addTransfer source target walkTime = .ok next) :
    source.index < draft.stops.size ∧ target.index < draft.stops.size ∧
      Scalar.isNonnegative walkTime = true ∧
        next = { draft with transfers := draft.transfers.push (source, ⟨target, walkTime⟩) } := by
  unfold addTransfer at h
  obtain ⟨_, hsource, h⟩ := bind_eq_ok.mp h
  obtain ⟨_, htarget, h⟩ := bind_eq_ok.mp h
  split at h
  · next htime =>
    cases h
    exact ⟨lt_of_requireStop hsource, lt_of_requireStop htarget, htime, rfl⟩
  · cases h

/-- What is checked before walks are looked for. -/
theorem requireWalks_eq_ok_iff {maxDistance walkSpeed beelineFactor : α} :
    requireWalks maxDistance walkSpeed beelineFactor = .ok () ↔
      Scalar.isPositive walkSpeed = true ∧ Scalar.isPositive beelineFactor = true ∧
        Scalar.isNonnegative maxDistance = true := by
  unfold requireWalks
  rw [bind_eq_ok, Unique.exists_iff, bind_eq_ok, Unique.exists_iff, requirePositive_eq_ok_iff,
    requirePositive_eq_ok_iff]
  by_cases hdistance : Scalar.isNonnegative maxDistance = true
  · simp [hdistance, pure, Except.pure]
  · simp [hdistance]

theorem exists_of_requireWalks_ne {maxDistance walkSpeed beelineFactor : α}
    (h : requireWalks maxDistance walkSpeed beelineFactor ≠ .ok ()) :
    ∃ fault, requireWalks maxDistance walkSpeed beelineFactor = .error (.badParameter fault) := by
  rw [Ne, requireWalks_eq_ok_iff] at h
  unfold requireWalks requirePositive
  by_cases hspeed : Scalar.isPositive walkSpeed = true
  · by_cases hfactor : Scalar.isPositive beelineFactor = true
    · have hdistance : ¬ Scalar.isNonnegative maxDistance = true :=
        fun h' => h ⟨hspeed, hfactor, h'⟩
      rw [if_pos hspeed, if_pos hfactor, if_neg hdistance]
      exact ⟨_, rfl⟩
    · rw [if_pos hspeed, if_neg hfactor]
      exact ⟨_, rfl⟩
  · rw [if_neg hspeed]
    exact ⟨_, rfl⟩

/-- Walks are added when the parameters make sense and the stops can be searched. -/
theorem addNearTransfers_eq_ok_iff {draft next : TimetableDraft α}
    {maxDistance walkSpeed beelineFactor : α} {count : Nat} :
    draft.addNearTransfers maxDistance walkSpeed beelineFactor = .ok (count, next) ↔
      requireWalks maxDistance walkSpeed beelineFactor = .ok () ∧
      Coord.requireOrder draft.stops.toList = .ok () ∧
      count = (draft.nearWalks maxDistance walkSpeed beelineFactor).length ∧
      next = { draft with
        transfers := draft.transfers ++
          (draft.nearWalks maxDistance walkSpeed beelineFactor).toArray } := by
  unfold addNearTransfers
  rw [bind_eq_ok, Unique.exists_iff, mapError_eq_ok_iff, bind_eq_ok, Unique.exists_iff, lift_eq_ok]
  simp only [pure, Except.pure, Except.ok.injEq, Prod.mk.injEq, eq_comm]

theorem eq_of_addNearTransfers {draft next : TimetableDraft α}
    {maxDistance walkSpeed beelineFactor : α} {count : Nat}
    (h : draft.addNearTransfers maxDistance walkSpeed beelineFactor = .ok (count, next)) :
    0 < walkSpeed ∧ 0 < beelineFactor ∧ next = { draft with
      transfers := draft.transfers ++
        (draft.nearWalks maxDistance walkSpeed beelineFactor).toArray } := by
  obtain ⟨hvalid, -, -, hnext⟩ := addNearTransfers_eq_ok_iff.mp h
  obtain ⟨hspeed, hfactor, -⟩ := requireWalks_eq_ok_iff.mp hvalid
  exact ⟨(Scalar.isPositive_iff.mp hspeed).2, (Scalar.isPositive_iff.mp hfactor).2, hnext⟩

/-! ## Groups by stop -/

omit [Scalar α] in
/-- The group of a stop holds its elements in their order. -/
theorem getElem?_byStop {γ : Type} {stopCount i : Nat} (h : i < stopCount)
    (xs : List (StopId × γ)) :
    (byStop stopCount xs)[i]? =
      some ((xs.filter fun x => x.1.index = i).map Prod.snd).toArray := by
  have aux : ∀ (xs : List (StopId × γ)) (groups : Array (Array γ)) (group : Array γ),
      groups[i]? = some group →
        (xs.foldl (fun groups x => groups.modify x.1.index (·.push x.2)) groups)[i]? =
          some (group ++ ((xs.filter fun x => x.1.index = i).map Prod.snd).toArray) := by
    intro xs
    induction xs with
    | nil => intro groups group hgroup; simpa using hgroup
    | cons x xs ih =>
      intro groups group hgroup
      rw [List.foldl_cons]
      by_cases hstop : x.1.index = i
      · rw [ih _ (group.push x.2) (by rw [Array.getElem?_modify, if_pos hstop, hgroup]; rfl)]
        simp [hstop]
      · rw [ih _ group (by rw [Array.getElem?_modify, if_neg hstop, hgroup])]
        simp [hstop]
  refine (aux xs _ #[] (by simp [h])).trans ?_
  simp

omit [Scalar α] in
/-- The calls of all routes by stop, each with the route and the position. -/
theorem mem_callsByRoute {routes : List (Route α)} {stop : StopId} {id : RouteId}
    {position : Nat} :
    (stop, id, position) ∈ callsByRoute routes ↔
      ∃ r route call, routes[r]? = some route ∧ route.calls[position]? = some call ∧
        call.stop = stop ∧ Id.ofIndex r = id := by
  unfold callsByRoute
  simp only [List.mem_flatMap, List.mem_map, Prod.exists, List.mem_zipIdx_iff_getElem?,
    Prod.mk.injEq, Array.getElem?_toList]
  constructor
  · rintro ⟨route, r, hroute, call, p, hcall, hstop, hid, rfl⟩
    exact ⟨r, route, call, hroute, hcall, hstop, hid⟩
  · rintro ⟨r, route, call, hroute, hcall, hstop, hid⟩
    exact ⟨route, r, hroute, call, position, hcall, hstop, hid, rfl⟩

/-! ## Soundness -/

/-- The routes of a draft are sound, and its walks lead to stops and not back in time. -/
structure Sound (draft : TimetableDraft α) : Prop where
  route_sound : ∀ route ∈ draft.routes.toList, route.Sound draft.stops.size
  target_lt : ∀ walk ∈ draft.transfers.toList, walk.2.target.index < draft.stops.size
  walkTime : ∀ walk ∈ draft.transfers.toList, ¬ walk.2.walkTime < 0

theorem lt_of_mem_within {points : List (Coord α)} {place : Coord α} {limit square : α} {i : Nat}
    (h : (i, square) ∈ Coord.within points place limit) : i < points.length := by
  unfold Coord.within at h
  split at h
  · obtain ⟨⟨p, j⟩, hp, hsome⟩ := List.mem_filterMap.mp h
    simp only at hsome
    split at hsome
    · cases hsome
      exact (List.getElem?_eq_some_iff.mp (List.mem_zipIdx_iff_getElem?.mp hp)).1
    · cases hsome
  · cases h

section Near

variable {draft : TimetableDraft α} {maxDistance walkSpeed beelineFactor : α}
  {walk : StopId × Transfer α}

/-- Near walks lead to stops, as long as there is an id for each of them. -/
theorem target_lt_of_mem_nearWalks (hsize : draft.stops.size < 2 ^ 32)
    (h : walk ∈ draft.nearWalks maxDistance walkSpeed beelineFactor) :
    walk.2.target.index < draft.stops.size := by
  obtain ⟨⟨place, source⟩, -, h⟩ := List.mem_flatMap.mp h
  obtain ⟨⟨target, square⟩, htarget, rfl⟩ := List.mem_map.mp h
  have hlt := lt_of_mem_within (List.mem_filter.mp htarget).1
  rw [Array.length_toList] at hlt
  rw [Id.index_ofIndex (by omega)]
  exact hlt

theorem walkTime_of_mem_nearWalks [LawfulScalar α] (hspeed : 0 < walkSpeed)
    (hfactor : 0 < beelineFactor)
    (h : walk ∈ draft.nearWalks maxDistance walkSpeed beelineFactor) : ¬ walk.2.walkTime < 0 := by
  obtain ⟨⟨place, source⟩, -, h⟩ := List.mem_flatMap.mp h
  obtain ⟨⟨target, square⟩, -, rfl⟩ := List.mem_map.mp h
  have hbeeline := LawfulScalar.not_mul_lt_zero (LawfulScalar.not_sqrt_lt_zero square)
    (Scalar.not_lt_of_le (Scalar.le_of_lt hfactor))
  exact LawfulScalar.not_div_lt_zero hbeeline hspeed

end Near

/-- No walk of a draft leads back in time. -/
theorem Drafted.not_walkTime_lt_zero [LawfulScalar α] {draft : TimetableDraft α}
    (h : Drafted draft) : ∀ walk ∈ draft.transfers, ¬ walk.2.walkTime < 0 := by
  induction h with
  | empty => simp [TimetableDraft.empty]
  | addStop _ _ ih => exact ih
  | addRoute _ hadd ih =>
    obtain ⟨route, -, rfl⟩ := sound_of_addRoute hadd
    exact ih
  | addTransfer _ hadd ih =>
    obtain ⟨-, -, htime, rfl⟩ := eq_of_addTransfer hadd
    intro walk hwalk
    rcases Array.mem_push.mp hwalk with hwalk | rfl
    · exact ih walk hwalk
    · exact Scalar.not_lt_of_le (Scalar.isNonnegative_iff.mp htime).2
  | addNearTransfers _ hadd ih =>
    obtain ⟨hspeed, hfactor, rfl⟩ := eq_of_addNearTransfers hadd
    intro walk hwalk
    rcases Array.mem_append.mp hwalk with hwalk | hwalk
    · exact ih walk hwalk
    · exact walkTime_of_mem_nearWalks hspeed hfactor (List.mem_toArray.mp hwalk)

/-- The walks of a draft lead to its stops, as long as there is an id for each of them. -/
theorem Drafted.target_lt [LawfulScalar α] {draft : TimetableDraft α} (h : Drafted draft) :
    draft.stops.size < 2 ^ 32 →
      ∀ walk ∈ draft.transfers, walk.2.target.index < draft.stops.size := by
  induction h with
  | empty => simp [TimetableDraft.empty]
  | @addStop draft position _ ih =>
    intro hsize walk hwalk
    simp only [TimetableDraft.addStop, Array.size_push] at hsize ⊢
    exact Nat.lt_succ_of_lt (ih (by omega) walk hwalk)
  | addRoute _ hadd ih =>
    obtain ⟨route, -, rfl⟩ := sound_of_addRoute hadd
    exact ih
  | addTransfer _ hadd ih =>
    obtain ⟨-, htarget, -, rfl⟩ := eq_of_addTransfer hadd
    intro hsize walk hwalk
    rcases Array.mem_push.mp hwalk with hwalk | rfl
    · exact ih hsize walk hwalk
    · exact htarget
  | addNearTransfers _ hadd ih =>
    obtain ⟨-, -, rfl⟩ := eq_of_addNearTransfers hadd
    intro hsize walk hwalk
    rcases Array.mem_append.mp hwalk with hwalk | hwalk
    · exact ih hsize walk hwalk
    · exact target_lt_of_mem_nearWalks hsize (List.mem_toArray.mp hwalk)

theorem Drafted.route_sound [LawfulScalar α] {draft : TimetableDraft α} (h : Drafted draft) :
    ∀ route ∈ draft.routes, route.Sound draft.stops.size := by
  induction h with
  | empty => simp [TimetableDraft.empty]
  | addStop position _ ih =>
    intro route hroute
    exact (ih route hroute).mono (by simp [TimetableDraft.addStop])
  | addRoute _ hadd ih =>
    obtain ⟨added, hadded, rfl⟩ := sound_of_addRoute hadd
    intro route hroute
    rcases Array.mem_push.mp hroute with hroute | rfl
    · exact ih route hroute
    · exact hadded
  | addTransfer _ hadd ih =>
    obtain ⟨-, -, -, rfl⟩ := eq_of_addTransfer hadd
    exact ih
  | addNearTransfers _ hadd ih =>
    obtain ⟨-, -, rfl⟩ := eq_of_addNearTransfers hadd
    exact ih

theorem Drafted.sound [LawfulScalar α] {draft : TimetableDraft α} (h : Drafted draft)
    (hsize : draft.stops.size < 2 ^ 32) : draft.Sound where
  route_sound route hroute := h.route_sound route (Array.mem_toList_iff.mp hroute)
  target_lt walk hwalk := h.target_lt hsize walk (Array.mem_toList_iff.mp hwalk)
  walkTime walk hwalk := h.not_walkTime_lt_zero walk (Array.mem_toList_iff.mp hwalk)

end TimetableDraft

namespace Timetable

omit [Scalar α] in
theorem contains_iff {timetable : Timetable α} {stop : StopId} :
    timetable.contains stop = true ↔ stop.index < timetable.stopCount :=
  decide_eq_true_iff

/-- The positions of a timetable are those of its routes, and its walks lead to stops and not back
in time. -/
structure Sound (timetable : Timetable α) : Prop where
  routeCount_lt : timetable.routeCount < 2 ^ 32
  route_sound : ∀ {id : RouteId} {route : Route α},
    timetable.route id = .ok route → route.Sound timetable.stopCount
  /-- A stop is served where routes call at it, and nowhere else. -/
  servedAt : ∀ {stop : StopId}, timetable.contains stop = true →
    Returns (timetable.servedAt stop) fun served => ∀ id position,
      (id, position) ∈ served ↔
        ∃ route call, timetable.route id = .ok route ∧ route.calls[position]? = some call ∧
          call.stop = stop
  transfersFrom : ∀ {stop : StopId}, timetable.contains stop = true →
    Returns (timetable.transfersFrom stop) fun transfers => ∀ transfer ∈ transfers,
      timetable.contains transfer.target = true ∧ ¬ transfer.walkTime < 0

theorem Sound.transfer_sound {timetable : Timetable α} (h : timetable.Sound) {stop : StopId}
    (hstop : timetable.contains stop = true) {transfers : List (Transfer α)}
    (htransfers : timetable.transfersFrom stop = .ok transfers) {transfer : Transfer α}
    (htransfer : transfer ∈ transfers) :
    timetable.contains transfer.target = true ∧ ¬ transfer.walkTime < 0 := by
  obtain ⟨_, hok, hall⟩ := h.transfersFrom hstop
  cases htransfers.symm.trans hok
  exact hall transfer htransfer

end Timetable

open TimetableDraft in
/-- Every built timetable is sound, when there are ids for its stops and routes. -/
theorem TimetableDraft.Drafted.sound_build [LawfulScalar α] {draft : TimetableDraft α}
    {timetable : Timetable α} (h : Drafted draft) (hbuild : draft.build = .ok timetable)
    (hstops : timetable.stopCount < 2 ^ 32) (hroutes : timetable.routeCount < 2 ^ 32) :
    timetable.Sound := by
  unfold build at hbuild
  obtain ⟨_, -, hbuild⟩ := bind_eq_ok.mp hbuild
  cases hbuild
  simp only [Timetable.stopCount, Timetable.routeCount] at hstops hroutes
  have hsound := h.sound hstops
  constructor
  · exact hroutes
  · intro id route hroute
    exact hsound.route_sound route (Array.mem_toList_iff.mpr
      (Array.mem_of_getElem? (fetch_eq_ok.mp hroute)))
  · intro stop hstop
    have hstop := Timetable.contains_iff.mp hstop
    refine Returns.map (Returns.of_eq (fetch_eq_ok.mpr (getElem?_byStop hstop _)) ?_)
    intro id position
    simp only [List.mem_map, List.mem_filter, Prod.exists, decide_eq_true_eq]
    constructor
    · rintro ⟨s, i, p, ⟨hmem, hs⟩, heq⟩
      cases heq
      obtain ⟨r, route, call, hroute, hcall, hs', hid⟩ := mem_callsByRoute.mp hmem
      have hr : r < draft.routes.size := by
        simpa using (List.getElem?_eq_some_iff.mp hroute).1
      refine ⟨route, call, fetch_eq_ok.mpr ?_, hcall, hs'.trans (Id.index_injective hs)⟩
      rw [← hid, Id.index_ofIndex (by omega), ← Array.getElem?_toList]
      exact hroute
    · rintro ⟨route, call, hroute, hcall, hs⟩
      refine ⟨stop, id, position, ⟨mem_callsByRoute.mpr ?_, rfl⟩, rfl⟩
      refine ⟨id.index, route, call, ?_, hcall, hs, Id.ofIndex_index id⟩
      rw [Array.getElem?_toList]
      exact fetch_eq_ok.mp hroute
  · intro stop hstop
    have hstop := Timetable.contains_iff.mp hstop
    refine Returns.map (Returns.of_eq (fetch_eq_ok.mpr (getElem?_byStop hstop _)) ?_)
    intro transfer htransfer
    obtain ⟨walk, hwalk, rfl⟩ := List.mem_map.mp htransfer
    have hmem := (List.mem_filter.mp hwalk).1
    exact ⟨Timetable.contains_iff.mpr (hsound.target_lt walk hmem), hsound.walkTime walk hmem⟩

end ZoneSkims
