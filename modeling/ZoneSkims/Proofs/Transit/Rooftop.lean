import ZoneSkims.Proofs.Transit.Coherence
import ZoneSkims.Proofs.Transit.Tight
import ZoneSkims.Transit.Rooftop

/-!
# Coherent averages over a window

The connections that are averaged are coherent as the arrivals are that they end with. Their
segments follow each other from the start of the window to its end, so that no more than the whole
window is shared out. What holds of each connection then holds of the averages.

* `Exact.UpTo`: a number from 0 up to a bound, unless it is undefined.
* `Connection.Coherent`: the figures of a connection fit together.
* `Tiles`: segments that follow each other.
* `WindowAverages.Coherent`: the figures of sums of averages fit together.
* `rooftop_coherent`: the averages over a window are coherent.
-/

namespace ZoneSkims

open Exact

variable {K : Type} [Field K] [LinearOrder K]

/-! ## Shares -/

namespace Exact

/-- A number from 0 up to a bound, unless it is undefined. -/
def UpTo (most : K) (a : Exact K) : Prop :=
  a = undefined ∨ ∃ x, a = finite x ∧ 0 ≤ x ∧ x ≤ most

theorem UpTo.zero : UpTo (0 : K) 0 := .inr ⟨0, rfl, le_rfl, le_rfl⟩

theorem two_eq [IsStrictOrderedRing K] : (2.0 : Exact K) = finite 2 :=
  congrArg finite (by norm_num)

variable [IsStrictOrderedRing K]

theorem finite_lt {x y : K} : (finite x : Exact K) < finite y ↔ x < y := by
  rw [LawfulScalar.lt_iff, finite_le, finite_le, lt_iff_le_not_ge]

namespace UpTo

variable {most more : K} {a b : Exact K}

theorem add (h : UpTo most a) (h' : UpTo more b) : UpTo (most + more) (a + b) := by
  rcases h with rfl | ⟨x, rfl, hx, hle⟩
  · exact .inl rfl
  · rcases h' with rfl | ⟨y, rfl, hy, hle'⟩
    · exact .inl rfl
    · exact .inr ⟨x + y, rfl, add_nonneg hx hy, add_le_add hle hle'⟩

theorem mul (h : UpTo most a) {share : K} (hshare : 0 ≤ share) :
    UpTo (share * most) (finite share * a) := by
  rcases h with rfl | ⟨x, rfl, hx, hle⟩
  · exact .inl rfl
  · exact .inr ⟨share * x, rfl, mul_nonneg hshare hx, mul_le_mul_of_nonneg_left hle hshare⟩

theorem div (h : UpTo most a) {n : K} (hn : 0 < n) : UpTo (most / n) (a / finite n) := by
  rcases h with rfl | ⟨x, rfl, hx, hle⟩
  · exact .inl rfl
  · exact .inr ⟨x / n, finite_div x hn.ne', div_nonneg hx hn.le,
      div_le_div_of_nonneg_right hle hn.le⟩

omit [IsStrictOrderedRing K] in
theorem exists_of_isNumber (h : UpTo most a) (hnumber : Scalar.IsNumber a) :
    ∃ x, a = finite x ∧ 0 ≤ x ∧ x ≤ most := by
  rcases h with rfl | h
  · cases hnumber
  · exact h

end UpTo

end Exact

/-! ## Connections -/

/-- The figures of a connection with at most so many changes fit together. -/
structure Connection.Coherent (maxTransfers : Nat) (c : Connection (Exact K)) : Prop where
  times : ∃ travel access egress : K, c.travelTime = finite travel ∧
    c.accessTime = finite access ∧ c.egressTime = finite egress ∧ access + egress ≤ travel
  transfers_le : c.transfers ≤ maxTransfers
  distance : ¬ c.inVehicleDistance < 0
  trainTimeShare : UpTo 1 c.trainTimeShare
  trainDistanceShare : UpTo 1 c.trainDistanceShare

namespace Connection

variable [IsStrictOrderedRing K]

theorem upTo_share {part whole : Exact K} (h : IsPart part whole) : UpTo 1 (share part whole) := by
  unfold share
  split
  · next hwhole =>
    rcases zero_lt_iff.mp hwhole with rfl | ⟨y, rfl, hy⟩
    · cases part with
      | finite x => exact .inr ⟨0, rfl, le_rfl, zero_le_one⟩
      | undefined => exact .inl rfl
      | below => exact .inl rfl
      | above => exact .inl rfl
    · obtain ⟨x, rfl, hx, hle⟩ := h.le y rfl
      exact .inr ⟨x / y, finite_div x hy.ne', div_nonneg hx hy.le, (div_le_one hy).mpr hle⟩
  · exact .inr ⟨0, rfl, le_rfl, zero_le_one⟩

theorem lt_of_mem_arrivingBefore {c : Connection (Exact K)}
    {connections : List (Connection (Exact K))} :
    ∀ {earliest : Exact K}, c ∈ arrivingBefore earliest connections → c.arrival < earliest := by
  induction connections with
  | nil => exact fun h => absurd h List.not_mem_nil
  | cons first rest ih =>
    intro earliest h
    unfold arrivingBefore at h
    split at h
    · next hfirst =>
      rcases List.mem_cons.mp h with rfl | h
      · exact hfirst
      · exact Scalar.lt_trans (ih h) hfirst
    · exact ih h

omit [IsStrictOrderedRing K] in
theorem arrivingBefore_ne_nil {c : Connection (Exact K)}
    {connections : List (Connection (Exact K))} {earliest : Exact K} (hc : c ∈ connections)
    (hlt : c.arrival < earliest) : arrivingBefore earliest connections ≠ [] := by
  induction connections with
  | nil => cases hc
  | cons first rest ih =>
    unfold arrivingBefore
    split
    · exact List.cons_ne_nil _ _
    · next hlate =>
      rcases List.mem_cons.mp hc with rfl | hc
      · exact absurd hlt hlate
      · exact ih hc

end Connection

theorem undominated_ne_nil {c : Connection (Exact K)} {connections : List (Connection (Exact K))}
    (hc : c ∈ connections) (harrives : c.arrival < Scalar.infinity) :
    undominated connections ≠ [] := fun hnil =>
  Connection.arrivingBefore_ne_nil (List.mem_mergeSort.mpr hc) harrives
    (List.reverse_eq_nil_iff.mp hnil)

theorem lt_infinity_of_mem_undominated [IsStrictOrderedRing K] {c : Connection (Exact K)}
    {connections : List (Connection (Exact K))} (h : c ∈ undominated connections) :
    c.arrival < Scalar.infinity :=
  Connection.lt_of_mem_arrivingBefore (List.mem_reverse.mp h)

/-- The connections that are left are in the order of departure. -/
theorem pairwise_undominated [IsStrictOrderedRing K] (connections : List (Connection (Exact K))) :
    (undominated connections).Pairwise fun a b => ¬ b.departure < a.departure := by
  refine List.pairwise_reverse.mpr (List.Pairwise.sublist
    (Connection.arrivingBefore_sublist _ _) ?_)
  exact (Connection.pairwise_sweepsBefore connections).imp Connection.not_lt_of_sweepsBefore

namespace TransitTree

variable {tree : TransitTree (Exact K)} {egress : List (NearStop (Exact K))}
  {c : Connection (Exact K)}

theorem mem_of_foldl_earlier {endings : List (Ending (Exact K))} :
    ∀ {best : Option (Ending (Exact K))} {ending : Ending (Exact K)},
      endings.foldl earlier best = some ending → best = some ending ∨ ending ∈ endings := by
  induction endings with
  | nil => exact .inl
  | cons first rest ih =>
    intro best ending h
    rcases ih h with h | h
    · cases best with
      | none => exact .inr (Option.some.inj h ▸ List.mem_cons_self)
      | some b =>
        rw [earlier] at h
        split at h
        · exact .inr (Option.some.inj h ▸ List.mem_cons_self)
        · exact .inl h
    · exact .inr (List.mem_cons_of_mem _ h)

/-- A connection has the figures of the arrival that it ends with. -/
theorem exists_label_of_connection? (h : tree.connection? egress = some c) :
    ∃ e ∈ egress, ∃ label, tree.arrival? e.stop = some label ∧
      c = { departure := tree.departure
            travelTime := label.time + e.walkTime - tree.departure
            accessTime := label.accessTime
            egressTime := e.walkTime
            transfers := label.transfers
            inVehicleTime := label.inVehicleTime
            inVehicleDistance := label.inVehicleDistance
            trainTime := label.trainTime
            trainDistance := label.trainDistance } := by
  obtain ⟨ending, hending, rfl⟩ := Option.map_eq_some_iff.mp h
  obtain ⟨e, he, hsome⟩ :=
    List.mem_filterMap.mp ((mem_of_foldl_earlier hending).resolve_left (Option.some_ne_none _).symm)
  obtain ⟨label, hlabel, -, rfl⟩ := ending?_eq_some.mp hsome
  exact ⟨e, he, label, hlabel, rfl⟩

variable [IsStrictOrderedRing K] {departure : K} {maxTransfers : Nat}

/-- A connection that arrives at all is coherent. -/
theorem coherent_of_connection? (hdeparture : tree.departure = finite departure)
    (harrivals : ∀ (stop : StopId) (label : Arrival (Exact K)), tree.arrival? stop = some label →
      label.Coherent departure (maxTransfers + 1))
    (hegress : ∀ e ∈ egress, ¬ e.walkTime < 0) (h : tree.connection? egress = some c)
    (harrives : c.arrival < Scalar.infinity) : c.Coherent maxTransfers := by
  obtain ⟨e, he, label, hlabel, rfl⟩ := exists_label_of_connection? h
  have hcoherent := harrivals e.stop label hlabel
  obtain ⟨access, ride, time, haccess, hride, htime, hle⟩ := hcoherent.times
  have hnonnegative : 0 ≤ ride := finite_not_lt_zero.mp (hride ▸ hcoherent.trainTime.not_lt_zero)
  refine ⟨?_, Nat.sub_le_of_le_add hcoherent.legs_le, hcoherent.trainDistance.not_lt_zero,
    Connection.upTo_share hcoherent.trainTime, Connection.upTo_share hcoherent.trainDistance⟩
  rw [Connection.arrival] at harrives
  dsimp only at harrives ⊢
  rw [hdeparture, htime] at harrives ⊢
  -- A walk that is infinite or undefined would not arrive.
  rcases not_lt_zero_iff.mp (hegress e he) with hwalk | hwalk | ⟨walk, hwalk, -⟩
  · rw [hwalk] at harrives
    cases harrives.2
  · rw [hwalk] at harrives
    exact absurd harrives (Scalar.lt_irrefl _)
  · rw [hwalk]
    exact ⟨time + walk - departure, access, walk, finite_sub _ _, haccess, rfl, by linarith⟩

end TransitTree

/-! ## Segments -/

/-- Segments that follow each other from one time to another. -/
inductive Tiles : K → K → List (Segment (Exact K)) → Prop
  | nil {time : K} : Tiles time time []
  | cons {low next high : K} {c : Connection (Exact K)} {segments : List (Segment (Exact K))} :
      low ≤ next → Tiles next high segments →
        Tiles low high (⟨finite low, finite next, c⟩ :: segments)

omit [Field K] in
theorem Tiles.le {low high : K} {segments : List (Segment (Exact K))}
    (h : Tiles low high segments) : low ≤ high := by
  induction h with
  | nil => exact le_rfl
  | cons hle _ ih => exact hle.trans ih

variable [IsStrictOrderedRing K]

theorem clamp_finite {low high : K} (h : low ≤ high) (x : K) :
    clamp (finite x : Exact K) (finite low) (finite high) =
      .ok (finite (max low (min x high))) := by
  rw [clamp, if_pos (finite_le.mpr h)]
  simp only [finite_lt]
  split_ifs with hx hx'
  · rw [max_eq_left ((min_le_left x high).trans hx.le)]
  · rw [min_eq_right hx'.le, max_eq_right h]
  · rw [min_eq_left (not_lt.mp hx'), max_eq_right (not_lt.mp hx)]

omit [IsStrictOrderedRing K] in
theorem midpoints_cons (window : Window (Exact K)) (first second : Connection (Exact K))
    (rest : List (Connection (Exact K))) :
    midpoints window (first :: second :: rest) = do
      let middle ← clamp ((first.departure + second.departure) / 2.0) window.start window.finish
      let middles ← midpoints window (second :: rest)
      return middle :: middles :=
  List.mapM_cons

theorem midpoints_cons_finite {start finish departure next : K} (hle : start ≤ finish)
    {first second : Connection (Exact K)} {rest : List (Connection (Exact K))}
    (hfirst : first.departure = finite departure) (hsecond : second.departure = finite next) :
    midpoints ⟨finite start, finite finish⟩ (first :: second :: rest) = do
      let middles ← midpoints ⟨finite start, finite finish⟩ (second :: rest)
      return finite (max start (min ((departure + next) / 2) finish)) :: middles := by
  have hclamp : clamp ((first.departure + second.departure) / 2.0 : Exact K) (finite start)
      (finite finish) = .ok (finite (max start (min ((departure + next) / 2) finish))) := by
    rw [hfirst, hsecond, two_eq, ← clamp_finite hle, ← finite_div _ two_ne_zero]
    rfl
  rw [midpoints_cons, hclamp]
  rfl

/-- The segments of connections in the order of departure follow each other, from any time on that
is not after the end of the first one. -/
theorem tiles_of_midpoints {start finish : K} (hle : start ≤ finish)
    {rest : List (Connection (Exact K))} :
    ∀ {first : Connection (Exact K)} {low departure : K} {middles : List (Exact K)},
      first.departure = finite departure → low ≤ finish →
      (∀ c ∈ rest, ∃ later, c.departure = finite later ∧ departure ≤ later ∧
        low ≤ max start (min ((departure + later) / 2) finish)) →
      rest.Pairwise (fun a b => ¬ b.departure < a.departure) →
      midpoints ⟨finite start, finite finish⟩ (first :: rest) = .ok middles →
      Tiles low finish (List.zipWith (fun ends connection => ⟨ends.1, ends.2, connection⟩)
        ((finite low :: middles).zip (middles ++ [finite finish])) (first :: rest)) := by
  induction rest with
  | nil =>
    intro first low departure middles _ hlow _ _ hmiddles
    cases hmiddles
    exact .cons hlow .nil
  | cons second rest ih =>
    intro first low departure middles hfirst hlow hlater hsorted hmiddles
    obtain ⟨hordered, hsorted⟩ := List.pairwise_cons.mp hsorted
    obtain ⟨⟨next, hsecond, -, hmiddle⟩, hlater⟩ := List.forall_mem_cons.mp hlater
    rw [midpoints_cons_finite hle hfirst hsecond] at hmiddles
    obtain ⟨others, hothers, hmiddles⟩ := bind_eq_ok.mp hmiddles
    cases hmiddles
    have hmost : max start (min ((departure + next) / 2) finish) ≤ finish :=
      max_le hle (min_le_right _ _)
    refine .cons hmiddle (ih hsecond hmost (fun c hc => ?_) hsorted hothers)
    obtain ⟨later, hc', hdeparture, -⟩ := hlater c hc
    have hnext : next ≤ later := by
      have hnot := hordered c hc
      rwa [hc', hsecond, finite_lt, not_lt] at hnot
    refine ⟨later, hc', hnext, max_le_max_left start (min_le_min_right finish ?_)⟩
    linarith

/-- The segments follow each other from the start of the window to its end. -/
theorem tiles_of_segments {start finish : K} (hle : start ≤ finish)
    {connections : List (Connection (Exact K))} (hne : connections ≠ [])
    (hdepartures : ∀ c ∈ connections, ∃ departure, c.departure = finite departure)
    (hsorted : connections.Pairwise fun a b => ¬ b.departure < a.departure)
    {parts : List (Segment (Exact K))}
    (h : segments ⟨finite start, finite finish⟩ connections = .ok parts) :
    Tiles start finish parts ∧ ∀ part ∈ parts, part.connection ∈ connections := by
  obtain ⟨middles, hmiddles, h⟩ := bind_eq_ok.mp h
  cases h
  constructor
  · obtain ⟨first, rest, rfl⟩ := List.exists_cons_of_ne_nil hne
    obtain ⟨hordered, hsorted⟩ := List.pairwise_cons.mp hsorted
    obtain ⟨⟨departure, hfirst⟩, hrest⟩ := List.forall_mem_cons.mp hdepartures
    refine tiles_of_midpoints hle hfirst hle (fun c hc => ?_) hsorted hmiddles
    obtain ⟨later, hlater⟩ := hrest c hc
    have hnot := hordered c hc
    rw [hlater, hfirst, finite_lt, not_lt] at hnot
    exact ⟨later, hlater, hnot, le_max_left _ _⟩
  · intro part hpart
    rw [← List.map_uncurry_zip_eq_zipWith] at hpart
    obtain ⟨⟨ends, connection⟩, hmem, rfl⟩ := List.mem_map.mp hpart
    exact (List.of_mem_zip hmem).2

/-! ## Averages -/

/-- The integral of a distance over an interval along which it is at most `most`. -/
theorem half_mul_abs_sub {x y most : K} (hle : x ≤ y)
    (hx : |x| ≤ most) (hy : |y| ≤ most) :
    0 ≤ y * |y| / 2 - x * |x| / 2 ∧ y * |y| / 2 - x * |x| / 2 ≤ (y - x) * most := by
  have hlength : 0 ≤ y - x := sub_nonneg.mpr hle
  rcases le_total 0 x with hx0 | hx0
  · have hy0 := hx0.trans hle
    rw [abs_of_nonneg hx0] at hx ⊢
    rw [abs_of_nonneg hy0] at hy ⊢
    have hmean : y * y / 2 - x * x / 2 = (y - x) * ((x + y) / 2) := by ring
    rw [hmean]
    exact ⟨mul_nonneg hlength (by linarith), mul_le_mul_of_nonneg_left (by linarith) hlength⟩
  · rw [abs_of_nonpos hx0] at hx ⊢
    rcases le_total 0 y with hy0 | hy0
    · -- The distance falls to 0 and rises again.
      rw [abs_of_nonneg hy0] at hy ⊢
      have hfall : -x * -x ≤ -x * most := mul_le_mul_of_nonneg_left hx (by linarith)
      have hrise : y * y ≤ y * most := mul_le_mul_of_nonneg_left hy hy0
      have hfall' : 0 ≤ -x * -x := mul_self_nonneg _
      have hrise' : 0 ≤ y * y := mul_self_nonneg _
      constructor <;> linarith
    · rw [abs_of_nonpos hy0] at hy ⊢
      have hmean : y * -y / 2 - x * -x / 2 = (y - x) * (-(x + y) / 2) := by ring
      rw [hmean]
      exact ⟨mul_nonneg hlength (by linarith), mul_le_mul_of_nonneg_left (by linarith) hlength⟩

theorem gapUpTo_finite (time departure : K) : gapUpTo (finite time) (finite departure) =
    (finite ((time - departure) * |time - departure| / 2) : Exact K) := by
  rw [gapUpTo, two_eq, finite_sub, ← finite_div _ two_ne_zero]
  rfl

/-- The gap between a departure and the wanted ones of a segment. -/
theorem gapUpTo_sub {low next departure span : K} (hle : low ≤ next)
    (hlow : |low - departure| ≤ span) (hnext : |next - departure| ≤ span) :
    UpTo ((next - low) * span) (gapUpTo (finite next) (finite departure) -
      gapUpTo (finite low) (finite departure) : Exact K) := by
  obtain ⟨hzero, hmost⟩ := half_mul_abs_sub (sub_le_sub_right hle departure) hlow hnext
  rw [sub_sub_sub_cancel_right] at hmost
  rw [gapUpTo_finite, gapUpTo_finite, finite_sub]
  exact .inr ⟨_, rfl, hzero, hmost⟩

/-- The figures of a sum of averages fit together: it counts at least so many connections, and the
weights of the averages add up to the given one. -/
structure WindowAverages.Coherent (span : K) (maxTransfers : Nat) (count weight : K)
    (s : WindowAverages (Exact K)) : Prop where
  frequency : ∃ f, s.frequency = finite f ∧ count ≤ f
  adaptionTime : UpTo (weight * span) s.adaptionTime
  times : ∃ travel access egress : K, s.travelTime = finite travel ∧
    s.accessTime = finite access ∧ s.egressTime = finite egress ∧ access + egress ≤ travel
  transfers : UpTo (weight * maxTransfers) s.transfers
  distance : ¬ s.inVehicleDistance < 0
  trainTimeShare : UpTo weight s.trainTimeShare
  trainDistanceShare : UpTo weight s.trainDistanceShare

namespace WindowAverages

variable {span count weight : K} {maxTransfers : Nat} {s : WindowAverages (Exact K)}
  {c : Connection (Exact K)}

/-- The sums before anything is added. -/
def zero {α : Type} [Scalar α] : WindowAverages α :=
  { adaptionTime := 0, frequency := 0, hourlyFrequency := 0, travelTime := 0, accessTime := 0
    egressTime := 0, transfers := 0, inVehicleDistance := 0, trainTimeShare := 0
    trainDistanceShare := 0 }

omit [IsStrictOrderedRing K] in
theorem coherent_zero : (zero : WindowAverages (Exact K)).Coherent span maxTransfers 0 0 := by
  refine ⟨⟨0, rfl, le_rfl⟩, ?_, ⟨0, 0, 0, rfl, rfl, rfl, (add_zero 0).le⟩, ?_,
    finite_not_lt_zero.mpr le_rfl, .zero, .zero⟩
  all_goals
    rw [zero_mul]
    exact .zero

omit [IsStrictOrderedRing K] in
theorem coherent_start (window : Window (Exact K)) {n : Nat} (hcount : count ≤ n) :
    (start window n).Coherent span maxTransfers count 0 :=
  { coherent_zero with frequency := ⟨_, rfl, hcount⟩ }

/-- A segment adds its share of the window to the weight. -/
theorem Coherent.addSegment (h : s.Coherent span maxTransfers count weight)
    (hc : c.Coherent maxTransfers) {departure low next : K}
    (hdeparture : c.departure = finite departure) (hspan : 0 < span) (hle : low ≤ next)
    (hlow : |low - departure| ≤ span) (hnext : |next - departure| ≤ span) :
    (addSegment (finite span) s ⟨finite low, finite next, c⟩).Coherent span maxTransfers count
      (weight + (next - low) / span) := by
  unfold WindowAverages.addSegment
  dsimp only
  split
  · next hempty =>
    rw [le_antisymm (finite_le.mp hempty) hle, sub_self, zero_div, add_zero]
    exact h
  · have hshare : ((finite next - finite low) / finite span : Exact K) =
        finite ((next - low) / span) := by
      rw [finite_sub, finite_div _ hspan.ne']
    have hnonneg : 0 ≤ (next - low) / span := div_nonneg (sub_nonneg.mpr hle) hspan.le
    obtain ⟨travel, access, egress, htravel, haccess, hegress, hwalks⟩ := h.times
    obtain ⟨travel', access', egress', htravel', haccess', hegress', hwalks'⟩ := hc.times
    rw [hshare, hdeparture]
    refine ⟨h.frequency, ?_, ?_, ?_, ?_, ?_, ?_⟩
    · have hgap := (gapUpTo_sub hle hlow hnext).div hspan
      rw [add_mul, div_mul_eq_mul_div]
      exact h.adaptionTime.add hgap
    · rw [htravel, haccess, hegress, htravel', haccess', hegress']
      refine ⟨_, _, _, rfl, rfl, rfl, ?_⟩
      have hshared := mul_le_mul_of_nonneg_left hwalks' hnonneg
      rw [mul_add] at hshared
      linarith
    · rw [add_mul]
      refine h.transfers.add (UpTo.mul ?_ hnonneg)
      exact .inr ⟨c.transfers, rfl, Nat.cast_nonneg _, Nat.cast_le.mpr hc.transfers_le⟩
    · exact not_add_lt_zero h.distance
        (not_mul_lt_zero (finite_not_lt_zero.mpr hnonneg) hc.distance)
    · have hpart := hc.trainTimeShare.mul hnonneg
      rw [mul_one] at hpart
      exact h.trainTimeShare.add hpart
    · have hpart := hc.trainDistanceShare.mul hnonneg
      rw [mul_one] at hpart
      exact h.trainDistanceShare.add hpart

/-- The segments up to a time have the weight of the window up to there. -/
theorem coherent_foldl_addSegment {start finish low high : K} {parts : List (Segment (Exact K))}
    (hlt : start < finish) (htiles : Tiles low high parts) (hstart : start ≤ low)
    (hfinish : high ≤ finish)
    (hparts : ∀ part ∈ parts, part.connection.Coherent maxTransfers ∧
      ∃ departure, part.connection.departure = finite departure ∧ start ≤ departure ∧
        departure ≤ finish) :
    ∀ {s : WindowAverages (Exact K)},
      s.Coherent (finish - start) maxTransfers count ((low - start) / (finish - start)) →
        (parts.foldl (addSegment (finite (finish - start))) s).Coherent (finish - start)
          maxTransfers count ((high - start) / (finish - start)) := by
  induction htiles with
  | nil => exact id
  | @cons low next high c parts hle htiles ih =>
    intro s hs
    obtain ⟨⟨hc, departure, hdeparture, hafter, hbefore⟩, hparts⟩ := List.forall_mem_cons.mp hparts
    have hend := htiles.le
    have hlow : |low - departure| ≤ finish - start := abs_le.mpr ⟨by linarith, by linarith⟩
    have hnext : |next - departure| ≤ finish - start := abs_le.mpr ⟨by linarith, by linarith⟩
    have hadded := hs.addSegment hc hdeparture (sub_pos.mpr hlt) hle hlow hnext
    rw [← add_div, sub_add_sub_cancel'] at hadded
    exact ih (hstart.trans hle) hfinish hparts hadded

end WindowAverages

theorem Window.eq_finite_of_isValid {window : Window (Exact K)} (h : window.isValid = true) :
    ∃ start finish : K, window = ⟨finite start, finite finish⟩ ∧ start < finish := by
  obtain ⟨start, finish⟩ := window
  rw [isValid, Bool.and_eq_true, Bool.and_eq_true, decide_eq_true_iff] at h
  obtain ⟨⟨hstart, hfinish⟩, hlt⟩ := h
  obtain ⟨x, rfl⟩ := eq_finite_of_isFinite hstart
  obtain ⟨y, rfl⟩ := eq_finite_of_isFinite hfinish
  exact ⟨x, y, rfl, finite_lt.mp hlt⟩

omit [IsStrictOrderedRing K] in
theorem Window.eq_finite_of_contains {start finish : K} {time : Exact K}
    (h : (⟨finite start, finite finish⟩ : Window (Exact K)).contains time = true) :
    ∃ x, time = finite x ∧ start ≤ x ∧ x ≤ finish := by
  obtain ⟨hstart, hfinish⟩ := contains_iff.mp h
  cases time with
  | finite x => exact ⟨x, rfl, finite_le.mp hstart, finite_le.mp hfinish⟩
  | undefined => cases hstart
  | below => cases hstart
  | above => cases hfinish

/-- The averages of coherent connections are coherent, and their weights add up to 1. -/
theorem rooftop_coherent {start finish : K} {maxTransfers : Nat}
    {connections : List (Connection (Exact K))} {averages : WindowAverages (Exact K)}
    (hlt : start < finish)
    (hconnections : ∀ c ∈ connections, c.Coherent maxTransfers ∧
      (⟨finite start, finite finish⟩ : Window (Exact K)).contains c.departure = true)
    (hsorted : connections.Pairwise fun a b => ¬ b.departure < a.departure)
    (h : rooftop connections ⟨finite start, finite finish⟩ = .ok (some averages)) :
    averages.Coherent (finish - start) maxTransfers 1 1 := by
  unfold rooftop at h
  split at h
  · cases h
  · next hempty =>
    obtain ⟨parts, hparts, h⟩ := bind_eq_ok.mp h
    cases h
    have hne : connections ≠ [] := fun hnil => hempty (List.isEmpty_iff.mpr hnil)
    have hdeparture := fun c hc => Window.eq_finite_of_contains (hconnections c hc).2
    have hdeparture' : ∀ c ∈ connections, ∃ departure, c.departure = finite departure :=
      fun c hc => (hdeparture c hc).imp fun _ => And.left
    obtain ⟨htiles, hmem⟩ := tiles_of_segments hlt.le hne hdeparture' hsorted hparts
    have hduration : (⟨finite start, finite finish⟩ : Window (Exact K)).duration =
        finite (finish - start) := finite_sub finish start
    have hone : (finish - start) / (finish - start) = 1 := div_self (sub_pos.mpr hlt).ne'
    have hstart : (WindowAverages.start ⟨finite start, finite finish⟩ connections.length).Coherent
        (finish - start) maxTransfers 1 ((start - start) / (finish - start)) := by
      rw [sub_self, zero_div]
      exact WindowAverages.coherent_start _
        (Nat.one_le_cast.mpr (List.length_pos_of_ne_nil hne))
    have hsum := WindowAverages.coherent_foldl_addSegment hlt htiles le_rfl le_rfl
      (fun part hpart => ⟨(hconnections _ (hmem part hpart)).1, hdeparture _ (hmem part hpart)⟩)
      hstart
    rw [hone] at hsum
    rw [hduration]
    exact hsum

end ZoneSkims
