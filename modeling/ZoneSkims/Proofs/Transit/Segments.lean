import Mathlib.Data.Set.Finite.List
import ZoneSkims.Proofs.Transit.Rooftop

/-!
# Nearest departures

Whoever wants to leave at some time of a window takes the connection of the segment that the time
lies in, and no departure is nearer, wherever the departures lie: a midpoint outside the window is
moved to its start or its end, and the segments beyond it are empty. The shares of the segments add
up to the whole window, and so averages lie between the figures that they are averages of.

* `Segment.IsNearest`: no departure is nearer than that of the segment.
* `exists_segments`: the segments of connections from one time on.
* `IsMean`: the figures of connections and their averages.
* `Tiles.sum_bounds`: what is averaged with the shares of segments.
* `exists_nearest_tiles`: the segments of connections in the order of departure.
* `rooftop_nearest`: the main result.
-/

namespace ZoneSkims

open Exact

/-! ## Segments -/

/-- The part of a window that a segment has. -/
def Segment.share {α : Type} [Scalar α] (window : Window α) (part : Segment α) : α :=
  (part.upper - part.lower) / window.duration

/-- The segments of connections with the given times between them. -/
def segmentsAt {α : Type} (low high : α) (middles : List α) (connections : List (Connection α)) :
    List (Segment α) :=
  List.zipWith (fun ends connection => ⟨ends.1, ends.2, connection⟩)
    ((low :: middles).zip (middles ++ [high])) connections

theorem rooftop_of_segments {α : Type} [Scalar α] {window : Window α}
    {connections : List (Connection α)} {parts : List (Segment α)} (hne : connections ≠ [])
    (h : segments window connections = .ok parts) : rooftop connections window =
      .ok (some (parts.foldl (WindowAverages.addSegment window.duration)
        (WindowAverages.start window connections.length))) := by
  rw [rooftop, if_neg (mt List.isEmpty_iff.mp hne), h]
  rfl

variable {K : Type} [Field K] [LinearOrder K]

/-- If the segment is not empty, then no departure of the list is nearer to any of its times than
that of its connection. -/
def Segment.IsNearest (connections : List (Connection (Exact K))) (part : Segment (Exact K)) :
    Prop :=
  part.lower < part.upper → ∀ t : K, part.lower ≤ finite t → finite t ≤ part.upper →
    ∀ c ∈ connections, Scalar.abs (finite t - part.connection.departure) ≤
      Scalar.abs (finite t - c.departure)

theorem abs_sub_finite (x y : K) :
    Scalar.abs (finite x - finite y : Exact K) = finite |x - y| := by
  rw [finite_sub]
  rfl

variable [IsStrictOrderedRing K]

/-- From the midpoint on, the later of two departures is the nearer one. -/
theorem abs_sub_le_of_middle_le {earlier later t : K} (hle : earlier ≤ later)
    (ht : (earlier + later) / 2 ≤ t) : |t - later| ≤ |t - earlier| := by
  have hafter : 0 ≤ t - earlier := by linarith
  rw [abs_of_nonneg hafter]
  exact abs_le.mpr ⟨by linarith, by linarith⟩

/-- Up to the midpoint, the earlier of two departures is the nearer one. -/
theorem abs_sub_le_of_le_middle {earlier later t : K} (hle : earlier ≤ later)
    (ht : t ≤ (earlier + later) / 2) : |t - earlier| ≤ |t - later| := by
  have hbefore : t - later ≤ 0 := by linarith
  rw [abs_of_nonpos hbefore]
  exact abs_le.mpr ⟨by linarith, by linarith⟩

/-- What the connections that came before leave to the next one: they are farther from all times
from `low` on, unless the window ends there. -/
def Behind (finish low departure : K) (earlier : List (Connection (Exact K))) : Prop :=
  ∀ e ∈ earlier, ∃ time, e.departure = finite time ∧ time ≤ departure ∧
    (low < finish → (time + departure) / 2 ≤ low)

theorem Behind.next {start finish low departure next : K} {first : Connection (Exact K)}
    {earlier : List (Connection (Exact K))} (h : Behind finish low departure earlier)
    (hfirst : first.departure = finite departure) (hnext : departure ≤ next) :
    Behind finish (max start (min ((departure + next) / 2) finish)) next (earlier ++ [first]) := by
  -- Unless the midpoint was moved to the end of the window, the next segment starts from it on.
  have hmiddle : max start (min ((departure + next) / 2) finish) < finish →
      (departure + next) / 2 ≤ max start (min ((departure + next) / 2) finish) := by
    intro hlt
    have hmin := (le_max_right start (min ((departure + next) / 2) finish)).trans_lt hlt
    rw [min_lt_iff, or_iff_left (lt_irrefl finish)] at hmin
    rw [min_eq_left hmin.le]
    exact le_max_right start _
  intro e he
  rcases List.mem_append.mp he with he | he
  · obtain ⟨time, htime, hle, -⟩ := h e he
    refine ⟨time, htime, hle.trans hnext, fun hlt => le_trans ?_ (hmiddle hlt)⟩
    linarith
  · obtain rfl := List.mem_singleton.mp he
    exact ⟨departure, hfirst, hnext, hmiddle⟩

/-- The first segment is nearest to its connection. -/
theorem isNearest_cons {finish low high departure : K} {first : Connection (Exact K)}
    {earlier rest : List (Connection (Exact K))} (hfirst : first.departure = finite departure)
    (hbehind : Behind finish low departure earlier) (hhigh : high ≤ finish)
    (hahead : ∀ c ∈ rest, ∃ later, c.departure = finite later ∧ departure ≤ later ∧
      (low < high → high ≤ (departure + later) / 2)) :
    (⟨finite low, finite high, first⟩ : Segment (Exact K)).IsNearest
      (earlier ++ first :: rest) := by
  intro hlt t hlow hup c hc
  have hlt := finite_lt.mp hlt
  have hlow := finite_le.mp hlow
  have hup := finite_le.mp hup
  change Scalar.abs (finite t - first.departure) ≤ _
  rcases List.mem_append.mp hc with hc | hc
  · obtain ⟨time, htime, hle, hmiddle⟩ := hbehind c hc
    rw [hfirst, htime, abs_sub_finite, abs_sub_finite, finite_le]
    exact abs_sub_le_of_middle_le hle ((hmiddle (hlt.trans_le hhigh)).trans hlow)
  · rcases List.mem_cons.mp hc with rfl | hc
    · rw [hfirst, abs_sub_finite]
      exact finite_le.mpr le_rfl
    · obtain ⟨later, hlater, hle, hmiddle⟩ := hahead c hc
      rw [hfirst, hlater, abs_sub_finite, abs_sub_finite, finite_le]
      exact abs_sub_le_of_le_middle hle (hup.trans (hmiddle hlt))

/-- Connections have segments from any time of the window on, each of them nearest to its
connection. -/
theorem exists_segments {start finish : K} (hle : start ≤ finish)
    {rest : List (Connection (Exact K))} :
    ∀ {first : Connection (Exact K)} {low departure : K} {earlier : List (Connection (Exact K))},
      first.departure = finite departure → start ≤ low → Behind finish low departure earlier →
      (∀ c ∈ rest, ∃ later, c.departure = finite later ∧ departure ≤ later) →
      rest.Pairwise (fun a b => a.departure ≤ b.departure) →
      ∃ middles, midpoints ⟨finite start, finite finish⟩ (first :: rest) = .ok middles ∧
        (segmentsAt (finite low) (finite finish) middles (first :: rest)).map Segment.connection =
          first :: rest ∧
        ∀ part ∈ segmentsAt (finite low) (finite finish) middles (first :: rest),
          part.IsNearest (earlier ++ first :: rest) := by
  induction rest with
  | nil =>
    intro first low departure earlier hfirst _ hbehind _ _
    refine ⟨[], rfl, rfl, fun part hpart => ?_⟩
    rw [List.mem_singleton.mp hpart]
    exact isNearest_cons hfirst hbehind (le_refl finish) fun c hc => absurd hc List.not_mem_nil
  | cons second rest ih =>
    intro first low departure earlier hfirst hlow hbehind hlater hsorted
    obtain ⟨hordered, hsorted⟩ := List.pairwise_cons.mp hsorted
    obtain ⟨⟨next, hsecond, hnext⟩, hlater⟩ := List.forall_mem_cons.mp hlater
    have hafter : ∀ c ∈ rest, ∃ later, c.departure = finite later ∧ next ≤ later := by
      intro c hc
      obtain ⟨later, hc', -⟩ := hlater c hc
      have hle := hordered c hc
      rw [hsecond, hc', finite_le] at hle
      exact ⟨later, hc', hle⟩
    obtain ⟨middles, hmiddles, hmap, hparts⟩ := ih hsecond (le_max_left start _)
      (hbehind.next hfirst hnext) hafter hsorted
    refine ⟨finite (max start (min ((departure + next) / 2) finish)) :: middles, ?_,
      congrArg (first :: ·) hmap, fun part hpart => ?_⟩
    · rw [midpoints_cons_finite hle hfirst hsecond, hmiddles]
      rfl
    · rcases List.mem_cons.mp hpart with hpart | hpart
      · rw [hpart]
        refine isNearest_cons hfirst hbehind (max_le hle (min_le_right _ _)) fun c hc => ?_
        have hmiddle : low < max start (min ((departure + next) / 2) finish) →
            max start (min ((departure + next) / 2) finish) ≤ (departure + next) / 2 := by
          intro hlt
          have hmax := (lt_max_iff.mp hlt).resolve_left (not_lt.mpr hlow)
          rw [max_eq_right (hlow.trans hmax.le)]
          exact min_le_left _ _
        rcases List.mem_cons.mp hc with rfl | hc
        · exact ⟨next, hsecond, hnext, hmiddle⟩
        · obtain ⟨later, hc', hle'⟩ := hafter c hc
          refine ⟨later, hc', hnext.trans hle', fun hlt => (hmiddle hlt).trans ?_⟩
          linarith
      · have hnearest := hparts part hpart
        rwa [List.append_assoc] at hnearest

/-! ## Shares -/

omit [Field K] [IsStrictOrderedRing K] in
theorem Tiles.exists_ends {low high : K} {parts : List (Segment (Exact K))}
    (h : Tiles low high parts) : ∀ part ∈ parts, ∃ lower upper, part.lower = finite lower ∧
      part.upper = finite upper ∧ lower ≤ upper := by
  induction h with
  | nil => exact fun part hpart => absurd hpart List.not_mem_nil
  | cons hle _ ih => exact List.forall_mem_cons.mpr ⟨⟨_, _, rfl, rfl, hle⟩, ih⟩

/-- A sum of values with the shares of segments lies between the bounds of the values, with the
share that all segments have together. -/
theorem Tiles.sum_bounds {low high least most span : K} {parts : List (Segment (Exact K))}
    (h : Tiles low high parts) (hspan : 0 < span) (value : Segment (Exact K) → Exact K)
    (hvalue : ∀ part ∈ parts, ∃ v, value part = finite v ∧ least ≤ v ∧ v ≤ most) :
    ∀ x : K, ∃ y, (parts.map fun part => (part.upper - part.lower) / finite span * value part).foldl
        (· + ·) (finite x) = finite y ∧
      x + (high - low) / span * least ≤ y ∧ y ≤ x + (high - low) / span * most := by
  induction h with
  | nil => exact fun x => ⟨x, rfl, by simp, by simp⟩
  | @cons low next high c parts hle _ ih =>
    intro x
    obtain ⟨⟨v, hv, hleast, hmost⟩, hvalue⟩ := List.forall_mem_cons.mp hvalue
    have hnonneg : 0 ≤ (next - low) / span := div_nonneg (sub_nonneg.mpr hle) hspan.le
    have hterm : (finite next - finite low) / finite span * value ⟨finite low, finite next, c⟩ =
        finite ((next - low) / span * v) := by
      rw [hv, finite_sub, finite_div _ hspan.ne', finite_mul]
    obtain ⟨y, hy, hlower, hupper⟩ := ih hvalue (x + (next - low) / span * v)
    have hleast := mul_le_mul_of_nonneg_left hleast hnonneg
    have hmost := mul_le_mul_of_nonneg_left hmost hnonneg
    have hsplit : (high - low) / span = (next - low) / span + (high - next) / span := by
      rw [← add_div, add_comm, sub_add_sub_cancel]
    refine ⟨y, ?_, ?_, ?_⟩
    · rw [List.map_cons, List.foldl_cons, hterm]
      exact hy
    · rw [hsplit, add_mul]
      linarith
    · rw [hsplit, add_mul]
      linarith

/-! ## Averages -/

/-- The figures of connections that are averaged, and their averages. -/
inductive IsMean : (Connection (Exact K) → Exact K) → (WindowAverages (Exact K) → Exact K) → Prop
  | travelTime : IsMean Connection.travelTime WindowAverages.travelTime
  | accessTime : IsMean Connection.accessTime WindowAverages.accessTime
  | egressTime : IsMean Connection.egressTime WindowAverages.egressTime
  | transfers : IsMean (fun c => Scalar.ofNat c.transfers) WindowAverages.transfers
  | inVehicleDistance : IsMean Connection.inVehicleDistance WindowAverages.inVehicleDistance
  | trainTimeShare : IsMean Connection.trainTimeShare WindowAverages.trainTimeShare
  | trainDistanceShare : IsMean Connection.trainDistanceShare WindowAverages.trainDistanceShare

namespace IsMean

variable {figure : Connection (Exact K) → Exact K} {average : WindowAverages (Exact K) → Exact K}

omit [IsStrictOrderedRing K] in
theorem start (h : IsMean figure average) (window : Window (Exact K)) (count : Nat) :
    average (WindowAverages.start window count) = finite 0 := by
  cases h <;> rfl

omit [IsStrictOrderedRing K] in
theorem addSegment (h : IsMean figure average) (span : Exact K) (s : WindowAverages (Exact K))
    (part : Segment (Exact K)) : average (s.addSegment span part) =
      if part.upper ≤ part.lower then average s
      else average s + (part.upper - part.lower) / span * figure part.connection := by
  unfold WindowAverages.addSegment
  cases h <;> split <;> rfl

omit [IsStrictOrderedRing K] in
/-- An empty segment would not add anything if it were counted. -/
theorem foldl_addSegment (h : IsMean figure average) {low high span : K} (hspan : span ≠ 0)
    {parts : List (Segment (Exact K))} (htiles : Tiles low high parts)
    (hfinite : ∀ part ∈ parts, Scalar.isFinite (figure part.connection) = true) :
    ∀ {s : WindowAverages (Exact K)}, Scalar.isFinite (average s) = true →
      average (parts.foldl (WindowAverages.addSegment (finite span)) s) =
        (parts.map fun part => (part.upper - part.lower) / finite span *
          figure part.connection).foldl (· + ·) (average s) := by
  induction htiles with
  | nil => exact fun _ => rfl
  | @cons low next high c parts hle _ ih =>
    intro s hs
    obtain ⟨hc, hfinite⟩ := List.forall_mem_cons.mp hfinite
    obtain ⟨x, hx⟩ := eq_finite_of_isFinite hs
    obtain ⟨v, hv⟩ := eq_finite_of_isFinite hc
    have hadd : average (s.addSegment (finite span) ⟨finite low, finite next, c⟩) =
        average s + (finite next - finite low) / finite span * figure c := by
      rw [h.addSegment]
      split
      · next hempty =>
        rw [le_antisymm (finite_le.mp hempty) hle, hx, hv, finite_sub, sub_self,
          finite_div _ hspan, zero_div, finite_mul, zero_mul]
        exact congrArg finite (add_zero x).symm
      · rfl
    have hsum : Scalar.isFinite (average s + (finite next - finite low) / finite span * figure c) =
        true := by
      rw [hx, hv, finite_sub, finite_div _ hspan, finite_mul]
      rfl
    rw [List.foldl_cons, List.map_cons, List.foldl_cons, ih hfinite (hadd ▸ hsum), hadd]

end IsMean

omit [IsStrictOrderedRing K] in
/-- A figure that is finite for all connections is least for one of them and greatest for one. -/
theorem exists_least_greatest {connections : List (Connection (Exact K))} (hne : connections ≠ [])
    {figure : Connection (Exact K) → Exact K}
    (hfinite : ∀ c ∈ connections, Scalar.isFinite (figure c) = true) :
    ∃ least ∈ connections, ∃ most ∈ connections, ∃ x y, figure least = finite x ∧
      figure most = finite y ∧
        ∀ c ∈ connections, ∃ v, figure c = finite v ∧ x ≤ v ∧ v ≤ y := by
  have hvalue : ∀ c ∈ connections, ∃ v, figure c = finite v :=
    fun c hc => eq_finite_of_isFinite (hfinite c hc)
  choose! value hvalue using hvalue
  have hsome : {c | c ∈ connections}.Nonempty := List.exists_mem_of_ne_nil connections hne
  obtain ⟨least, hleast, hlower⟩ :=
    Set.exists_min_image _ value (List.finite_toSet connections) hsome
  obtain ⟨most, hmost, hupper⟩ :=
    Set.exists_max_image _ value (List.finite_toSet connections) hsome
  exact ⟨least, hleast, most, hmost, _, _, hvalue least hleast, hvalue most hmost,
    fun c hc => ⟨value c, hvalue c hc, hlower c hc, hupper c hc⟩⟩

theorem Tiles.sum_share {start finish : K} (hlt : start < finish)
    {parts : List (Segment (Exact K))} (h : Tiles start finish parts) :
    (∀ part ∈ parts, 0 ≤ part.share ⟨finite start, finite finish⟩) ∧
      Scalar.sum (parts.map (Segment.share ⟨finite start, finite finish⟩)) = finite 1 := by
  have hspan := sub_pos.mpr hlt
  have hduration : (⟨finite start, finite finish⟩ : Window (Exact K)).duration =
      finite (finish - start) := finite_sub finish start
  have hshare : ∀ part ∈ parts, ∃ share, part.share ⟨finite start, finite finish⟩ = finite share ∧
      0 ≤ share := by
    intro part hpart
    obtain ⟨lower, upper, hlower, hupper, hle⟩ := h.exists_ends part hpart
    refine ⟨_, ?_, div_nonneg (sub_nonneg.mpr hle) hspan.le⟩
    rw [Segment.share, hlower, hupper, hduration, finite_sub, finite_div _ hspan.ne']
  constructor
  · intro part hpart
    obtain ⟨share, hshare, hnonneg⟩ := hshare part hpart
    rw [hshare]
    exact finite_le.mpr hnonneg
  · obtain ⟨total, htotal, hlower, hupper⟩ := h.sum_bounds hspan (fun _ => finite 1)
      (fun _ _ => ⟨1, rfl, le_rfl, le_rfl⟩) 0
    rw [div_self hspan.ne', mul_one, zero_add] at hlower hupper
    have hone : parts.map (Segment.share ⟨finite start, finite finish⟩) = parts.map fun part =>
        (part.upper - part.lower) / finite (finish - start) * finite 1 := by
      refine List.map_congr_left fun part hpart => ?_
      obtain ⟨share, hshare, -⟩ := hshare part hpart
      rw [← hduration]
      change _ = part.share _ * finite 1
      rw [hshare, finite_mul, mul_one]
    have hzero : (-0 : Exact K) = finite 0 := congrArg finite neg_zero
    rw [Scalar.sum, hone, hzero, htotal, le_antisymm hupper hlower]

/-- What is averaged with the shares of a whole window lies between two of the figures. -/
theorem IsMean.mean {figure : Connection (Exact K) → Exact K}
    {average : WindowAverages (Exact K) → Exact K} (h : IsMean figure average) {start finish : K}
    (hlt : start < finish) {connections : List (Connection (Exact K))} (hne : connections ≠ [])
    (hfinite : ∀ c ∈ connections, Scalar.isFinite (figure c) = true)
    {parts : List (Segment (Exact K))} (htiles : Tiles start finish parts)
    (hmem : ∀ part ∈ parts, part.connection ∈ connections) {summary : WindowAverages (Exact K)}
    (hsummary : summary = parts.foldl
      (WindowAverages.addSegment (⟨finite start, finite finish⟩ : Window (Exact K)).duration)
      (WindowAverages.start ⟨finite start, finite finish⟩ connections.length)) :
    average summary = Scalar.sum (parts.map fun part =>
        part.share ⟨finite start, finite finish⟩ * figure part.connection) ∧
      ∃ least ∈ connections, ∃ most ∈ connections,
        figure least ≤ average summary ∧ average summary ≤ figure most := by
  have hspan := sub_pos.mpr hlt
  have hduration : (⟨finite start, finite finish⟩ : Window (Exact K)).duration =
      finite (finish - start) := finite_sub finish start
  have hzero : (-0 : Exact K) = finite 0 := congrArg finite neg_zero
  have hsum : average summary = Scalar.sum (parts.map fun part =>
      (part.upper - part.lower) / finite (finish - start) * figure part.connection) := by
    rw [hsummary, hduration, h.foldl_addSegment hspan.ne' htiles
      (fun part hpart => hfinite _ (hmem part hpart)) (by rw [h.start]; rfl), h.start,
      Scalar.sum, hzero]
  obtain ⟨least, hleast, most, hmost, x, y, hx, hy, hvalue⟩ := exists_least_greatest hne hfinite
  obtain ⟨total, htotal, hlower, hupper⟩ := htiles.sum_bounds hspan
    (fun part => figure part.connection) (fun part hpart => hvalue _ (hmem part hpart)) 0
  rw [div_self hspan.ne', one_mul, zero_add] at hlower hupper
  refine ⟨by rw [hsum, ← hduration]; rfl, least, hleast, most, hmost, ?_⟩
  rw [hsum, Scalar.sum, hzero, htotal, hx, hy, finite_le, finite_le]
  exact ⟨hlower, hupper⟩

/-- Connections in the order of departure have segments that follow each other from the start of the
window to its end, each of them nearest to its connection. -/
theorem exists_nearest_tiles {start finish : K} (hle : start ≤ finish)
    {connections : List (Connection (Exact K))} (hne : connections ≠ [])
    (hdepartures : ∀ c ∈ connections, Scalar.isFinite c.departure = true)
    (hsorted : connections.Pairwise fun a b => a.departure ≤ b.departure) :
    ∃ parts, segments ⟨finite start, finite finish⟩ connections = .ok parts ∧
      parts.map Segment.connection = connections ∧ Tiles start finish parts ∧
      ∀ part ∈ parts, part.connection ∈ connections ∧ part.IsNearest connections := by
  have hfinite : ∀ c ∈ connections, ∃ departure, c.departure = finite departure :=
    fun c hc => eq_finite_of_isFinite (hdepartures c hc)
  obtain ⟨first, rest, rfl⟩ := List.exists_cons_of_ne_nil hne
  obtain ⟨hordered, hrest⟩ := List.pairwise_cons.mp hsorted
  obtain ⟨departure, hfirst⟩ := hfinite first List.mem_cons_self
  have hlater : ∀ c ∈ rest, ∃ later, c.departure = finite later ∧ departure ≤ later := by
    intro c hc
    obtain ⟨later, hlater⟩ := hfinite c (List.mem_cons_of_mem _ hc)
    exact ⟨later, hlater, finite_le.mp (hfirst ▸ hlater ▸ hordered c hc)⟩
  have hbehind : Behind finish start departure [] := fun e he => absurd he List.not_mem_nil
  obtain ⟨middles, hmiddles, hmap, hnearest⟩ :=
    exists_segments hle hfirst le_rfl hbehind hlater hrest
  have hparts : segments ⟨finite start, finite finish⟩ (first :: rest) =
      .ok (segmentsAt (finite start) (finite finish) middles (first :: rest)) := by
    rw [segments, hmiddles]
    rfl
  obtain ⟨htiles, hmem⟩ :=
    tiles_of_segments hle hne hfinite (hsorted.imp Scalar.not_lt_of_le) hparts
  exact ⟨_, hparts, hmap, htiles, fun part hpart => ⟨hmem part hpart, hnearest part hpart⟩⟩

/-- The segments of connections in the order of departure follow each other from the start of the
window to its end, each of them nearest to its connection. Their shares add up to 1, and each figure
is averaged with them, so that the average lies between two of the figures. -/
theorem rooftop_nearest {start finish : K} (hlt : start < finish)
    {connections : List (Connection (Exact K))} (hne : connections ≠ [])
    (hdepartures : ∀ c ∈ connections, Scalar.isFinite c.departure = true)
    (hsorted : connections.Pairwise fun a b => a.departure ≤ b.departure) :
    ∃ parts averages, segments ⟨finite start, finite finish⟩ connections = .ok parts ∧
      rooftop connections ⟨finite start, finite finish⟩ = .ok (some averages) ∧
      parts.map Segment.connection = connections ∧ Tiles start finish parts ∧
      (∀ part ∈ parts, part.IsNearest connections) ∧
      (∀ part ∈ parts, 0 ≤ part.share ⟨finite start, finite finish⟩) ∧
      Scalar.sum (parts.map (Segment.share ⟨finite start, finite finish⟩)) = finite 1 ∧
      ∀ figure average, IsMean figure average →
        (∀ c ∈ connections, Scalar.isFinite (figure c) = true) →
          average averages = Scalar.sum (parts.map fun part =>
            part.share ⟨finite start, finite finish⟩ * figure part.connection) ∧
          ∃ least ∈ connections, ∃ most ∈ connections,
            figure least ≤ average averages ∧ average averages ≤ figure most := by
  obtain ⟨parts, hparts, hmap, htiles, hnearest⟩ :=
    exists_nearest_tiles hlt.le hne hdepartures hsorted
  obtain ⟨hnonneg, htotal⟩ := htiles.sum_share hlt
  have hmem : ∀ part ∈ parts, part.connection ∈ connections :=
    fun part hpart => (hnearest part hpart).1
  exact ⟨parts, _, hparts, rooftop_of_segments hne hparts, hmap, htiles,
    fun part hpart => (hnearest part hpart).2, hnonneg, htotal,
    fun figure average h hfinite => h.mean hlt hne hfinite htiles hmem rfl⟩

/-- A ride of ten minutes without walks. -/
def coach (departure : ℚ) : Connection (Exact ℚ) where
  departure := finite departure
  travelTime := finite 600
  accessTime := finite 0
  egressTime := finite 0
  transfers := 0
  inVehicleTime := finite 600
  inVehicleDistance := finite 10000
  trainTime := finite 0
  trainDistance := finite 0

/-- The first one leaves before the hour, and the last two leave after it. -/
def coaches : List (Connection (Exact ℚ)) := [-600, 600, 1500, 4200, 5000].map coach

/-- The first segment and the last one are empty. -/
theorem coaches_nearest : (0 : ℚ) < 3600 ∧ coaches ≠ [] ∧
    (∀ c ∈ coaches, Scalar.isFinite c.departure = true) ∧
    (coaches.Pairwise fun a b => a.departure ≤ b.departure) ∧
    (∀ c ∈ coaches, Scalar.isFinite c.travelTime = true) ∧
    ∃ parts averages, segments ⟨finite 0, finite 3600⟩ coaches = .ok parts ∧
      rooftop coaches ⟨finite 0, finite 3600⟩ = .ok (some averages) ∧
      parts.map Segment.connection = coaches ∧ Tiles (0 : ℚ) 3600 parts ∧
      (∀ part ∈ parts, part.IsNearest coaches) ∧
      Scalar.sum (parts.map (Segment.share ⟨finite 0, finite 3600⟩)) = finite 1 ∧
      ∃ least ∈ coaches, ∃ most ∈ coaches,
        least.travelTime ≤ averages.travelTime ∧ averages.travelTime ≤ most.travelTime := by
  have hlt : (0 : ℚ) < 3600 := by norm_num
  have hne : coaches ≠ [] := List.cons_ne_nil _ _
  have hdepartures : ∀ c ∈ coaches, Scalar.isFinite c.departure = true := by decide
  have hsorted : coaches.Pairwise fun a b => a.departure ≤ b.departure := by decide +kernel
  have htimes : ∀ c ∈ coaches, Scalar.isFinite c.travelTime = true := by decide
  obtain ⟨parts, averages, hparts, hrooftop, hmap, htiles, hnearest, -, htotal, hmean⟩ :=
    rooftop_nearest hlt hne hdepartures hsorted
  exact ⟨hlt, hne, hdepartures, hsorted, htimes, parts, averages, hparts, hrooftop, hmap, htiles,
    hnearest, htotal, (hmean _ _ .travelTime htimes).2⟩

end ZoneSkims
