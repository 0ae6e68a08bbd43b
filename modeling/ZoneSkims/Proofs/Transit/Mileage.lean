import ZoneSkims.Proofs.Scalar.Difference
import ZoneSkims.Proofs.Transit.Trips

/-!
# Mileages

The mileage of a route adds up the lengths of its legs, none of which is negative. So it never
becomes less from one call to the next, as long as it is defined, and the metres of a ride are not
negative. This holds of timetables of any size, and wherever their stops are.

* `TimetableDraft.mileage_of_addRoute`: what the mileage of an accepted route is.
* `Route.Lengthens`: later mileages are not less.
* `Timetable.Onward`: what the routes of a timetable keep, of whatever size it is.
-/

namespace ZoneSkims

variable {α : Type} [Scalar α]

/-! ## Lengths -/

namespace TimetableDraft

theorem isNonnegative_of_checkCalls {draft : TimetableDraft α}
    {refuse : RouteFault α → TransitError α} (calls : List (Call α)) :
    ∀ {position : Nat} {last : α} {places : List (Coord α)},
      draft.checkCalls refuse position last calls = .ok places → ∀ call ∈ calls,
        ∀ length, call.distance = some length → Scalar.isNonnegative length = true := by
  induction calls with
  | nil => exact fun _ _ hcall => absurd hcall List.not_mem_nil
  | cons first calls ih =>
    intro position last places h
    unfold checkCalls at h
    obtain ⟨place, -, h⟩ := bind_eq_ok.mp h
    split at h
    · cases h
    · split at h
      · cases h
      · next hdistance =>
        obtain ⟨rest, hrest, -⟩ := bind_eq_ok.mp h
        refine List.forall_mem_cons.mpr ⟨fun length hlength => ?_, ih hrest⟩
        simpa [hlength] using hdistance

variable [LawfulScalar α]

/-- The lengths of legs are given ones, which were checked, or beelines. -/
theorem not_legLengths_lt_zero {calls : List (Call α)} {places : List (Coord α)}
    (hcalls : ∀ call ∈ calls, ∀ length, call.distance = some length →
      Scalar.isNonnegative length = true) :
    ∀ length ∈ legLengths calls places, ¬ length < 0 := by
  intro length hlength
  unfold legLengths at hlength
  split at hlength
  · obtain ⟨call, hcall, hsome⟩ := List.mem_filterMap.mp hlength
    have hnonnegative := hcalls call (List.mem_of_mem_drop hcall) length hsome
    exact Scalar.not_lt_of_le (Scalar.isNonnegative_iff.mp hnonnegative).2
  · rw [← List.map_uncurry_zip_eq_zipWith] at hlength
    obtain ⟨⟨place, next⟩, -, rfl⟩ := List.mem_map.mp hlength
    exact LawfulScalar.not_sqrt_lt_zero _

/-- The mileage of an accepted route adds up lengths that are not negative. -/
theorem mileage_of_addRoute {draft next : TimetableDraft α} {line : String} {mode : Mode}
    {calls : List (Call α)} {departures : List α} {id : RouteId}
    (h : draft.addRoute line mode calls departures = .ok (id, next)) :
    ∃ (route : Route α) (lengths : List α),
      next = { draft with routes := draft.routes.push route } ∧
        (∀ length ∈ lengths, ¬ length < 0) ∧
          route.mileage = (runningSums 0 lengths).toArray := by
  unfold addRoute at h
  split at h
  · cases h
  · obtain ⟨places, hplaces, h⟩ := bind_eq_ok.mp h
    split at h
    · cases h
    · cases h
      exact ⟨_, _, rfl, not_legLengths_lt_zero (isNonnegative_of_checkCalls calls hplaces), rfl⟩

/-! ## Sums -/

/-- A sum that is defined is not less than what the first one is not less than. -/
theorem le_of_mem_runningSums {first : α} {lengths : List α} :
    (∀ length ∈ lengths, ¬ length < 0) →
      ∀ {total : α}, (Scalar.IsNumber total → first ≤ total) →
        ∀ last ∈ runningSums total lengths, Scalar.IsNumber last → first ≤ last := by
  induction lengths with
  | nil =>
    intro _ total htotal last hlast
    exact List.mem_singleton.mp hlast ▸ htotal
  | cons length lengths ih =>
    intro hlengths total htotal last hlast
    obtain ⟨hlength, hrest⟩ := List.forall_mem_cons.mp hlengths
    rcases List.mem_cons.mp hlast with rfl | hlast
    · exact htotal
    · refine ih hrest (fun hsum => ?_) last hlast
      have hle := LawfulScalar.le_add hsum hlength
      exact Scalar.le_trans (htotal (Scalar.isNumber_left hle)) hle

theorem pairwise_runningSums_le {lengths : List α} :
    (∀ length ∈ lengths, ¬ length < 0) → ∀ total : α,
      (runningSums total lengths).Pairwise fun first last =>
        Scalar.IsNumber last → first ≤ last := by
  induction lengths with
  | nil => exact fun _ total => List.pairwise_singleton _ total
  | cons length lengths ih =>
    intro hlengths total
    obtain ⟨hlength, hrest⟩ := List.forall_mem_cons.mp hlengths
    exact .cons (le_of_mem_runningSums hrest fun hsum => LawfulScalar.le_add hsum hlength)
      (ih hrest _)

end TimetableDraft

/-! ## Routes -/

/-- The metres from the first call to each call never become fewer, as long as they are defined. -/
def Route.Lengthens (route : Route α) : Prop :=
  route.mileage.toList.Pairwise fun first last => Scalar.IsNumber last → first ≤ last

/-- The metres of a ride are a difference between two of the mileages in order. -/
theorem Route.exists_mileage {R : α → α → Prop} {route : Route α}
    (h : route.mileage.toList.Pairwise R) {start finish : Nat} {metres : α}
    (hmetres : route.metresBetween start finish = .ok metres) (hlt : start < finish) :
    ∃ first last, R first last ∧ last - first = metres := by
  obtain ⟨last, first, hlast, hfirst, hdifference⟩ := metresBetween_eq_ok.mp hmetres
  rw [← Array.getElem?_toList] at hlast hfirst
  obtain ⟨_, rfl⟩ := List.getElem?_eq_some_iff.mp hlast
  obtain ⟨_, rfl⟩ := List.getElem?_eq_some_iff.mp hfirst
  exact ⟨_, _, List.pairwise_iff_getElem.mp h start finish _ _ hlt, hdifference⟩

/-- The metres of a ride are not negative. -/
theorem Route.Lengthens.not_lt_zero [LawfulScalar α] [LawfulSign α] {route : Route α}
    (h : route.Lengthens) {start finish : Nat} {metres : α}
    (hmetres : route.metresBetween start finish = .ok metres) (hlt : start < finish) :
    ¬ metres < 0 := by
  obtain ⟨first, last, hle, rfl⟩ := Route.exists_mileage h hmetres hlt
  intro hnegative
  have hless := LawfulSign.lt_of_sub_lt_zero hnegative
  exact Scalar.not_lt_of_le (hle (Scalar.isNumber_left (Scalar.le_of_lt hless))) hless

/-- What the routes of a timetable keep, of whatever size it is. -/
structure Timetable.Onward (timetable : Timetable α) : Prop where
  route_sound : ∀ {id : RouteId} {route : Route α},
    timetable.route id = .ok route → ∃ stopCount, route.Sound stopCount
  lengthens : ∀ {id : RouteId} {route : Route α},
    timetable.route id = .ok route → route.Lengthens

namespace TimetableDraft.Drafted

variable [LawfulScalar α] {draft : TimetableDraft α}

theorem lengthens (h : Drafted draft) : ∀ route ∈ draft.routes, route.Lengthens := by
  induction h with
  | empty => simp [TimetableDraft.empty]
  | addStop _ _ ih => exact ih
  | addRoute _ hadd ih =>
    obtain ⟨added, lengths, rfl, hlengths, hmileage⟩ := mileage_of_addRoute hadd
    intro route hroute
    rcases Array.mem_push.mp hroute with hroute | rfl
    · exact ih route hroute
    · rw [Route.Lengthens, hmileage]
      exact pairwise_runningSums_le hlengths 0
  | addTransfer _ hadd ih =>
    obtain ⟨-, -, -, rfl⟩ := eq_of_addTransfer hadd
    exact ih
  | addNearTransfers _ hadd ih =>
    obtain ⟨-, -, rfl⟩ := eq_of_addNearTransfers hadd
    exact ih

/-- The routes of a built timetable run and lengthen onward. -/
theorem onward_build {timetable : Timetable α} (h : Drafted draft)
    (hbuild : draft.build = .ok timetable) : timetable.Onward := by
  obtain ⟨_, -, hbuild⟩ := bind_eq_ok.mp hbuild
  cases hbuild
  exact ⟨fun hroute => ⟨_, h.route_sound _ (Array.mem_of_getElem? (fetch_eq_ok.mp hroute))⟩,
    fun hroute => h.lengthens _ (Array.mem_of_getElem? (fetch_eq_ok.mp hroute))⟩

end TimetableDraft.Drafted

end ZoneSkims
