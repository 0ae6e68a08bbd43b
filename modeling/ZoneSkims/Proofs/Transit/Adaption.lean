import Mathlib.Analysis.Calculus.Deriv.Abs
import Mathlib.MeasureTheory.Integral.DivergenceTheorem
import ZoneSkims.Proofs.Transit.Segments

/-!
# The mean gap to the nearest departure

The adaption time adds up, segment by segment, what the antiderivative of a distance gains from one
end of the segment to the other. Whoever wants to leave in a segment is nearest to its connection,
and so the sum is an integral over the whole window, of the distance to the nearest departure.

* `nearestGap`: the distance between a time and the nearest departure.
* `integral_abs_sub`: the integral of the distance from one departure.
* `Tiles.adaptionTime`: what segments add to the adaption time.
* `adaptionTime_eq_integral`: the main result.
-/

namespace ZoneSkims

open Exact

/-- The seconds between a time and the departure nearest to it. -/
noncomputable def nearestGap (connections : List (Connection (Exact ℝ))) (t : ℝ) : ℝ :=
  Metric.infDist t {departure | ∃ c ∈ connections, c.departure = finite departure}

section Gap

variable {connections : List (Connection (Exact ℝ))} {c : Connection (Exact ℝ)}
  {departure low high t : ℝ}

theorem continuous_nearestGap (connections : List (Connection (Exact ℝ))) :
    Continuous (nearestGap connections) :=
  Metric.continuous_infDist_pt _

/-- The gap of a departure that is nearer than all others. -/
theorem nearestGap_eq (hc : c ∈ connections) (hdeparture : c.departure = finite departure)
    (hnearest : ∀ c ∈ connections, Scalar.abs (finite t - finite departure : Exact ℝ) ≤
      Scalar.abs (finite t - c.departure)) : nearestGap connections t = |t - departure| := by
  have hmem : departure ∈ {d | ∃ c ∈ connections, c.departure = finite d} := ⟨c, hc, hdeparture⟩
  refine le_antisymm (Metric.infDist_le_dist_of_mem hmem) ((Metric.le_infDist ⟨_, hmem⟩).mpr ?_)
  rintro other ⟨o, ho, hother⟩
  have hle := hnearest o ho
  rwa [hother, abs_sub_finite, abs_sub_finite, finite_le] at hle

/-- Some departure is nearest. -/
theorem isLeast_nearestGap (hne : connections ≠ [])
    (hdepartures : ∀ c ∈ connections, Scalar.isFinite c.departure = true) (t : ℝ) :
    IsLeast {gap | ∃ c ∈ connections, Scalar.abs (finite t - c.departure) = finite gap}
      (nearestGap connections t) := by
  have hgap : ∀ c ∈ connections, Scalar.isFinite (Scalar.abs (finite t - c.departure)) = true := by
    intro c hc
    obtain ⟨departure, hdeparture⟩ := eq_finite_of_isFinite (hdepartures c hc)
    rw [hdeparture, abs_sub_finite]
    rfl
  obtain ⟨c, hc, _, _, x, _, hx, _, hleast⟩ := exists_least_greatest hne hgap
  obtain ⟨departure, hdeparture⟩ := eq_finite_of_isFinite (hdepartures c hc)
  rw [hdeparture, abs_sub_finite] at hx
  obtain rfl := Exact.finite.inj hx
  have hnearest : nearestGap connections t = |t - departure| := by
    refine nearestGap_eq hc hdeparture fun o ho => ?_
    obtain ⟨gap, hgap, hle, -⟩ := hleast o ho
    rw [hgap, abs_sub_finite]
    exact finite_le.mpr hle
  rw [hnearest]
  refine ⟨⟨c, hc, hdeparture ▸ abs_sub_finite t departure⟩, ?_⟩
  rintro gap ⟨o, ho, hgap⟩
  obtain ⟨gap', hgap', hle, -⟩ := hleast o ho
  rwa [← Exact.finite.inj (hgap'.symm.trans hgap)]

/-! ## Integrals -/

/-- The distance from a departure has an antiderivative: half the square of the time since then,
with the sign of that time. -/
theorem integral_abs_sub (low high departure : ℝ) :
    ∫ t in low..high, |t - departure| =
      (high - departure) * |high - departure| / 2 - (low - departure) * |low - departure| / 2 := by
  -- At the departure itself the distance has a corner.
  refine MeasureTheory.integral_eq_of_hasDerivAt_off_countable
    (fun t => (t - departure) * |t - departure| / 2) _ (Set.countable_singleton departure)
    (by fun_prop) (fun t ht => ?_) (Continuous.intervalIntegrable (by fun_prop) _ _)
  have hne : t - departure ≠ 0 := sub_ne_zero.mpr ht.2
  have hsub := (hasDerivAt_id t).sub_const departure
  have hderiv := (hsub.mul ((hasDerivAt_abs hne).comp t hsub)).div_const 2
  refine hderiv.congr_deriv ?_
  have hself := self_mul_sign (t - departure)
  dsimp only [Function.comp_apply, id]
  linarith

theorem integral_nearestGap (hc : c ∈ connections) (hdeparture : c.departure = finite departure)
    (hle : low ≤ high)
    (hnearest : (⟨finite low, finite high, c⟩ : Segment (Exact ℝ)).IsNearest connections) :
    ∫ t in low..high, nearestGap connections t =
      (high - departure) * |high - departure| / 2 - (low - departure) * |low - departure| / 2 := by
  rcases hle.eq_or_lt with rfl | hlt
  · rw [intervalIntegral.integral_same, sub_self]
  · rw [← integral_abs_sub]
    refine intervalIntegral.integral_congr fun t ht => nearestGap_eq hc hdeparture fun o ho => ?_
    rw [Set.uIcc_of_le hle] at ht
    rw [← hdeparture]
    exact hnearest (finite_lt.mpr hlt) t (finite_le.mpr ht.1) (finite_le.mpr ht.2) o ho

end Gap

/-! ## Segments -/

variable {connections : List (Connection (Exact ℝ))} {low high span : ℝ}
  {parts : List (Segment (Exact ℝ))}

/-- Segments that are nearest to their connections add the integral of the gap to the adaption
time. -/
theorem Tiles.adaptionTime (htiles : Tiles low high parts) (hspan : span ≠ 0)
    (hdepartures : ∀ c ∈ connections, Scalar.isFinite c.departure = true)
    (hparts : ∀ part ∈ parts, part.connection ∈ connections ∧ part.IsNearest connections) :
    ∀ {s : WindowAverages (Exact ℝ)} {x : ℝ}, s.adaptionTime = finite x →
      (parts.foldl (WindowAverages.addSegment (finite span)) s).adaptionTime =
        finite (x + (∫ t in low..high, nearestGap connections t) / span) := by
  induction htiles with
  | nil =>
    intro s x hs
    rw [List.foldl_nil, hs, intervalIntegral.integral_same, zero_div, add_zero]
  | @cons low next high c parts hle _ ih =>
    intro s x hs
    obtain ⟨⟨hc, hnearest⟩, hparts⟩ := List.forall_mem_cons.mp hparts
    obtain ⟨departure, hdeparture⟩ := eq_finite_of_isFinite (hdepartures c hc)
    have hadd : (s.addSegment (finite span) ⟨finite low, finite next, c⟩).adaptionTime =
        finite (x + (∫ t in low..next, nearestGap connections t) / span) := by
      rw [WindowAverages.addSegment]
      split
      · next hempty =>
        rw [hs, le_antisymm (finite_le.mp hempty) hle, intervalIntegral.integral_same, zero_div,
          add_zero]
      · rw [integral_nearestGap hc hdeparture hle hnearest]
        simp only [hs, hdeparture, gapUpTo_finite, finite_sub, finite_div _ hspan]
        rfl
    have hintegrable : ∀ a b : ℝ,
        IntervalIntegrable (nearestGap connections) MeasureTheory.volume a b :=
      fun a b => (continuous_nearestGap connections).intervalIntegrable a b
    rw [List.foldl_cons, ih hparts hadd, add_assoc, ← add_div,
      intervalIntegral.integral_add_adjacent_intervals (hintegrable _ _) (hintegrable _ _)]

/-- The adaption time of connections in the order of departure is the mean, over all times of the
window, of the distance to the nearest departure. -/
theorem adaptionTime_eq_integral {start finish : ℝ} (hlt : start < finish)
    (hne : connections ≠ [])
    (hdepartures : ∀ c ∈ connections, Scalar.isFinite c.departure = true)
    (hsorted : connections.Pairwise fun a b => a.departure ≤ b.departure) :
    Continuous (nearestGap connections) ∧
      (∀ t, IsLeast {gap | ∃ c ∈ connections, Scalar.abs (finite t - c.departure) = finite gap}
        (nearestGap connections t)) ∧
      ∃ averages, rooftop connections ⟨finite start, finite finish⟩ = .ok (some averages) ∧
        averages.adaptionTime =
          finite ((∫ t in start..finish, nearestGap connections t) / (finish - start)) := by
  obtain ⟨parts, hparts, -, htiles, hnearest⟩ :=
    exists_nearest_tiles hlt.le hne hdepartures hsorted
  refine ⟨continuous_nearestGap connections, isLeast_nearestGap hne hdepartures, _,
    rooftop_of_segments hne hparts, ?_⟩
  have hduration : (⟨finite start, finite finish⟩ : Window (Exact ℝ)).duration =
      finite (finish - start) := finite_sub finish start
  rw [hduration, htiles.adaptionTime (sub_pos.mpr hlt).ne' hdepartures hnearest rfl, zero_add]

/-- Ferries that take an hour. The first one leaves before the hour, and the last one after it. -/
noncomputable def ferries : List (Connection (Exact ℝ)) :=
  [-600, 600, 1500, 4200].map fun departure : ℝ =>
    { departure := finite departure, travelTime := finite 3600, accessTime := finite 0
      egressTime := finite 0, transfers := 0, inVehicleTime := finite 3600
      inVehicleDistance := finite 20000, trainTime := finite 0, trainDistance := finite 0 }

theorem adaptionTime_ferries : (0 : ℝ) < 3600 ∧ ferries ≠ [] ∧
    (∀ c ∈ ferries, Scalar.isFinite c.departure = true) ∧
    (ferries.Pairwise fun a b => a.departure ≤ b.departure) ∧
    (∀ t, IsLeast {gap | ∃ c ∈ ferries, Scalar.abs (finite t - c.departure) = finite gap}
      (nearestGap ferries t)) ∧
    ∃ averages, rooftop ferries ⟨finite 0, finite 3600⟩ = .ok (some averages) ∧
      averages.adaptionTime =
        finite ((∫ t in (0 : ℝ)..3600, nearestGap ferries t) / (3600 - 0)) := by
  have hlt : (0 : ℝ) < 3600 := by norm_num
  have hne : ferries ≠ [] := List.cons_ne_nil _ _
  have hdepartures : ∀ c ∈ ferries, Scalar.isFinite c.departure = true := by
    intro c hc
    obtain ⟨departure, -, rfl⟩ := List.mem_map.mp hc
    rfl
  have hsorted : ferries.Pairwise fun a b => a.departure ≤ b.departure := by
    refine List.pairwise_map.mpr (List.Pairwise.imp finite_le.mpr ?_)
    norm_num
  obtain ⟨-, hleast, haverages⟩ := adaptionTime_eq_integral hlt hne hdepartures hsorted
  exact ⟨hlt, hne, hdepartures, hsorted, hleast, haverages⟩

end ZoneSkims
