import ZoneSkims.Proofs.Transit.Course
import ZoneSkims.Proofs.Transit.Soundness

/-!
# How many rounds there are

The limit on changes is not what ends a search: it may be as large as a number of rounds can be. A
search ends because times do not decrease along the way to an arrival, neither by waits nor by rides
nor by walks. A way that came back to one of its stops would improve nothing there, so that the way
to what round `k` improves has `k + 1` different stops.

* `Trail`: different stops that are all reached by a time.
* `TransitRouter.After.exists_trail`: the way to a stop that was improved.
* `TransitRouter.rounds_bounded`: there are no more rounds than stops.
-/

namespace ZoneSkims

variable {α : Type} [Scalar α]

/-- The stops are different ones, and all are reached no later than `time`. -/
structure Trail (best : Array (Arrival α)) (visited : List StopId) (time : α) : Prop where
  nodup : visited.Nodup
  within : ∀ v ∈ visited, Within best v time

namespace Trail

variable {before best : Array (Arrival α)} {visited : List StopId} {time : α}

theorem length_le {timetable : Timetable α} (h : Trail best visited time)
    (hsize : best.size = timetable.stopCount) : visited.length ≤ timetable.stopCount := by
  refine timetable.length_le_stopCount h.nodup fun v hv => Timetable.contains_iff.mpr ?_
  obtain ⟨label, hlabel, -⟩ := h.within v hv
  exact hsize ▸ (Array.getElem?_eq_some_iff.mp hlabel).1

variable [LawfulScalar α]

theorem single {stop : StopId} {label : Arrival α} (hlabel : best[stop.index]? = some label)
    (hnumber : Scalar.IsNumber label.time) : Trail best [stop] label.time := by
  refine ⟨List.nodup_singleton stop, fun v hv => ?_⟩
  obtain rfl := List.mem_singleton.mp hv
  exact ⟨label, hlabel, Scalar.le_refl hnumber⟩

/-- A stop that is improved after all stops of a trail is not one of them. -/
theorem cons (h : Trail before visited time) {stop : StopId} {known label : Arrival α}
    (hle : time ≤ label.time) (hknown : before[stop.index]? = some known)
    (hlt : label.time < known.time) (hlabel : best[stop.index]? = some label)
    (hkeep : ∀ v t, Within before v t → Within best v t) :
    Trail best (stop :: visited) label.time := by
  refine ⟨List.nodup_cons.mpr ⟨fun hmem => ?_, h.nodup⟩, fun v hv => ?_⟩
  · obtain ⟨known', hknown', hknown'_le⟩ := h.within stop hmem
    cases hknown.symm.trans hknown'
    exact Scalar.not_lt_of_le (Scalar.le_trans hknown'_le hle) hlt
  · rcases List.mem_cons.mp hv with rfl | hv
    · exact ⟨label, hlabel, Scalar.le_refl (Scalar.isNumber_left (Scalar.le_of_lt hlt))⟩
    · obtain ⟨here, hhere, hhere_le⟩ := hkeep v time (h.within v hv)
      exact ⟨here, hhere, Scalar.le_trans hhere_le hle⟩

end Trail

namespace TransitRouter

variable [LawfulScalar α] {router : TransitRouter α} {isTrain : Route α → Bool}
  {access : List (NearStop α)} {departure : α} {done : Nat} {state : RoundState α}

section Course

variable (hrouter : router.Sound isTrain)
  (haccess : ∀ a ∈ access, router.timetable.contains a.stop = true)

include hrouter haccess

/-- The way to a stop that round `k` has improved has `k` other stops, one for each round before. -/
theorem After.exists_trail (h : router.After access departure done state) {stop : StopId}
    (hstop : stop ∈ state.improved) : ∃ label visited, state.best[stop.index]? = some label ∧
      visited.length = done + 1 ∧ Trail state.best visited label.time := by
  induction h generalizing stop with
  | start henter =>
    obtain ⟨state, hstate, hsince, -⟩ := enter_spec haccess
    cases henter.symm.trans hstate
    obtain ⟨known, label, -, hlabel, hlt, -⟩ := hsince.gained stop hstop
    exact ⟨label, [stop], hlabel, rfl,
      .single hlabel (Scalar.isNumber_left (Scalar.le_of_lt hlt))⟩
  | round hbefore _ hround ih =>
    obtain ⟨rides, hadvances⟩ := hbefore.advances hrouter haccess hround
    obtain ⟨known, label, hknown, hlabel, hlt, -⟩ := hadvances.since.gained stop hstop
    obtain ⟨source, hsource, here, hhere, -, hle, -⟩ :=
      hbefore.follows hrouter haccess hround hstop hlabel
    obtain ⟨here', visited, hhere', hlength, htrail⟩ := ih hsource
    cases hhere.symm.trans hhere'
    exact ⟨label, stop :: visited, hlabel, congrArg Nat.succ hlength,
      htrail.cons hle hknown hlt hlabel fun _ _ hwithin => hadvances.within hwithin⟩

/-- A round before which something was improved is not one too many. -/
theorem After.lt_stopCount (h : router.After access departure done state)
    (hmarked : state.improved ≠ []) : done < router.timetable.stopCount := by
  obtain ⟨stop, hstop⟩ := List.exists_mem_of_ne_nil _ hmarked
  obtain ⟨label, visited, -, hlength, htrail⟩ := h.exists_trail hrouter haccess hstop
  have hle := htrail.length_le (h.fits hrouter haccess).size
  omega

theorem After.le_stopCount (h : router.After access departure done state) :
    done ≤ router.timetable.stopCount := by
  cases h with
  | start _ => exact Nat.zero_le _
  | round hbefore hmarked _ => exact hbefore.lt_stopCount hrouter haccess hmarked

end Course

/-- Every search in a built timetable ends: after a round that has improved nothing, or after as
many as the limit on changes allows. There are no more rounds than stops. -/
theorem rounds_bounded {draft : TimetableDraft α} {timetable : Timetable α}
    {router : TransitRouter α} (parameters : RouterParameters α) (isTrain : Route α → Bool)
    (access : List (NearStop α)) (departure : α) (hdraft : draft.Drafted)
    (hbuild : draft.build = .ok timetable) (hstops : timetable.stopCount < 2 ^ 32)
    (hroutes : timetable.routeCount < 2 ^ 32)
    (hnew : TransitRouter.new timetable parameters isTrain = .ok router)
    (haccess : ∀ a ∈ access, timetable.contains a.stop = true) :
    ∃ tree last, router.tree access departure = .ok tree ∧
      router.After access departure tree.rounds last ∧ last.best = tree.arrivals ∧
      (last.improved = [] ∨ tree.rounds = parameters.maxRounds) ∧
      tree.rounds ≤ min (parameters.maxTransfers + 1) timetable.stopCount := by
  have htimetable := hdraft.sound_build hbuild hstops hroutes
  obtain ⟨hrouter, -, rfl, rfl⟩ := sound_of_new htimetable hnew
  obtain ⟨tree, htree⟩ := exists_tree hrouter haccess departure
  obtain ⟨last, hlast, hbest, hle, hend⟩ := exists_after_of_tree htree
  have hmost := Nat.le_trans hle (Nat.min_le_left _ _)
  exact ⟨tree, last, htree, hlast, hbest, hend,
    Nat.le_min.mpr ⟨hmost, hlast.le_stopCount hrouter haccess⟩⟩

end TransitRouter

/-- The largest limit on changes. -/
def unlimited : RouterParameters Float :=
  { RouterParameters.standard with maxTransfers := 0xFFFFFFFF }

theorem rounds_bounded_busAndTrain : ∃ draft timetable router tree last,
    busAndTrain = .ok draft ∧ draft.Drafted ∧ draft.build = .ok timetable ∧
      timetable.stopCount < 2 ^ 32 ∧ timetable.routeCount < 2 ^ 32 ∧
      TransitRouter.new timetable unlimited (fun route => decide (route.mode = .rail)) =
        .ok router ∧
      timetable.contains ⟨0⟩ = true ∧ router.tree [⟨⟨0⟩, 45⟩] 0 = .ok tree ∧
      router.After [⟨⟨0⟩, 45⟩] 0 tree.rounds last ∧ last.best = tree.arrivals ∧
      (last.improved = [] ∨ tree.rounds = unlimited.maxRounds) ∧
      tree.rounds ≤ min (unlimited.maxTransfers + 1) timetable.stopCount := by
  have hdraft := drafted_busAndTrain _ rfl
  obtain ⟨tree, last, htree, hcourse⟩ := TransitRouter.rounds_bounded unlimited
    (fun route => decide (route.mode = .rail)) [⟨⟨0⟩, 45⟩] 0 hdraft rfl (by decide) (by decide) rfl
    (by decide)
  exact ⟨_, _, _, tree, last, rfl, hdraft, rfl, by decide, by decide, rfl, by decide, htree,
    hcourse⟩

end ZoneSkims
