import ZoneSkims.Proofs.Outcome
import ZoneSkims.Proofs.Scalar.Laws
import ZoneSkims.Skim.Configuration

/-!
# Valid configurations

* `Configuration.Valid`, `Configuration.validate_eq_ok_iff`: what is checked of a configuration.
-/

namespace ZoneSkims

variable {α : Type} [Scalar α]

/-- What is checked of the parameters of a router. -/
theorem RouterParameters.validate_eq_ok {parameters : RouterParameters α}
    (hspeed : Scalar.isPositive parameters.walkSpeed = true)
    (hfactor : Scalar.isPositive parameters.beelineWalkFactor = true)
    (hradius : Scalar.isPositive parameters.searchRadius = true)
    (hwait : Scalar.IsNumber parameters.maxTransferWait)
    (hwait' : ¬ parameters.maxTransferWait < 0) : parameters.validate = .ok () := by
  have hnumber : Scalar.isNaN parameters.maxTransferWait = false := hwait
  simp only [validate, requirePositive, hspeed, hfactor, hradius, hnumber, hwait', if_true,
    decide_false, Bool.or_self, Bool.false_eq_true, if_false]
  rfl

namespace Configuration

/-- Everything that is checked of a configuration. -/
structure Valid (config : Configuration α) : Prop where
  workers_ne_zero : config.workers ≠ 0
  departures_ne_nil : config.departures ≠ []
  isFinite_departure : ∀ time ∈ config.departures, Scalar.isFinite time = true
  window : config.window.isValid = true
  maxBeeline : ∀ metres, config.maxBeeline = some metres → Scalar.IsNumber metres ∧ ¬ metres ≤ 0
  costLimit : ∀ cost, config.costLimit = some cost → Scalar.IsNumber cost ∧ ¬ cost ≤ 0
  router : config.router.validate = .ok ()

theorem badLimit?_eq_none_iff {limit : Option α} :
    badLimit? limit = none ↔ ∀ x, limit = some x → Scalar.IsNumber x ∧ ¬ x ≤ 0 := by
  cases limit with
  | none => simp [badLimit?]
  | some x => simp [badLimit?, Option.filter_eq_none_iff, Scalar.IsNumber]

/-- Nothing is wrong with a configuration exactly when it is valid. -/
theorem validate_eq_ok_iff {config : Configuration α} :
    config.validate = .ok () ↔ config.Valid := by
  unfold validate
  by_cases hworkers : config.workers = 0
  · rw [if_pos hworkers]
    exact ⟨(nomatch ·), fun h => absurd hworkers h.workers_ne_zero⟩
  rw [if_neg hworkers]
  by_cases hempty : config.departures.isEmpty = true
  · rw [if_pos hempty]
    exact ⟨(nomatch ·), fun h => absurd (List.isEmpty_iff.mp hempty) h.departures_ne_nil⟩
  rw [if_neg hempty]
  cases hfinite : config.departures.find? fun time => !Scalar.isFinite time with
  | some time =>
    refine ⟨(nomatch ·), fun h => ?_⟩
    have hnot := List.find?_some hfinite
    rw [h.isFinite_departure time (List.mem_of_find?_eq_some hfinite)] at hnot
    cases hnot
  | none =>
  cases hwindow : config.window.isValid with
  | false =>
    refine ⟨fun h => ?_, fun h => ?_⟩
    · rw [Window.validate, hwindow] at h
      cases h
    · rw [h.window] at hwindow
      cases hwindow
  | true =>
  rw [Window.validate, hwindow, if_pos rfl]
  cases hbeeline : badLimit? config.maxBeeline with
  | some metres =>
    refine ⟨(nomatch ·), fun h => ?_⟩
    rw [badLimit?_eq_none_iff.mpr h.maxBeeline] at hbeeline
    cases hbeeline
  | none =>
  cases hcost : badLimit? config.costLimit with
  | some cost =>
    refine ⟨(nomatch ·), fun h => ?_⟩
    rw [badLimit?_eq_none_iff.mpr h.costLimit] at hcost
    cases hcost
  | none =>
  change config.router.validate.mapError RunError.transit = .ok () ↔ config.Valid
  rw [mapError_eq_ok_iff]
  refine ⟨fun hrouter => ?_, fun h => h.router⟩
  refine ⟨hworkers, fun h => hempty (List.isEmpty_iff.mpr h), fun time htime => ?_, hwindow,
    badLimit?_eq_none_iff.mp hbeeline, badLimit?_eq_none_iff.mp hcost, hrouter⟩
  simpa using List.find?_eq_none.mp hfinite time htime

theorem valid_of_isSome {config : Configuration α}
    (h : config.validate.toOption.isSome = true) : config.Valid := by
  obtain ⟨_, hok⟩ := exists_of_isSome h
  exact validate_eq_ok_iff.mp hok

end Configuration

end ZoneSkims
