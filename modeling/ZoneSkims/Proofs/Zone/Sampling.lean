import ZoneSkims.Proofs.Outcome
import ZoneSkims.Proofs.Scalar.Sorting
import ZoneSkims.Proofs.Zone.Random
import ZoneSkims.Proofs.Zone.Table
import ZoneSkims.Proofs.Zone.Weights

/-!
# Sampled zones

A draw by weight is of a location whose weight counts, as it is made at a place before the total. Only
when no weight counts is the total 0, and then every location can be drawn. In either way no position
outside the list is drawn, so that points are lacking for no zone.

What is excluded is a total that is not finite. Weights that are finite one by one can have such a
total, and then there are no points for any zone (`not_sampled_heavy`).

* `Drawn`: the points of one zone.
* `drawn_drawZones`, `drawZones_of_infinite`: one zone after the other.
* `Sampled`, `samplePoints_spec`: the points of all zones.
-/

namespace ZoneSkims

open Scalar

variable {α γ : Type} [Scalar α]

section

variable [LawfulScalar α]

/-! ## Draws of one zone -/

/-- A draw by weight is of a candidate whose weight counts. -/
theorem drawByWeight_spec [LawfulNeutral α] {source : DrawSource α γ} (hsource : source.Lawful)
    {candidates : List (Candidate α)} (hfinite : isFinite (totalWeight candidates) = true)
    (hpos : 0 < totalWeight candidates) (state : γ) :
    ∃ c, candidates[(drawByWeight source
        (WeightScale.ofWeights (candidates.map Candidate.usableWeight)) state).1]? = some c ∧
      isPositive c.weight = true := by
  cases candidates with
  | nil => exact absurd hpos (Scalar.lt_irrefl 0)
  | cons first rest =>
    rw [← WeightScale.total_ofWeights] at hfinite hpos
    have h0 := (isNonnegative_iff.mp first.isNonnegative_usableWeight).2
    have hrest := isNonnegative_of_mem_usableWeights rest
    have hplace0 := hsource.fraction_nonneg state hfinite hpos
    have hplace := hsource.fraction_lt state hfinite hpos
    obtain ⟨w, hw, hwpos⟩ := WeightScale.exists_located h0 hrest hplace
      fun hlt => Scalar.lt_of_le_of_lt hplace0 hlt
    rw [← List.map_cons, List.getElem?_map, Option.map_eq_some_iff] at hw
    obtain ⟨c, hc, rfl⟩ := hw
    exact ⟨c, hc, Candidate.usableWeight_pos_iff.mp hwpos⟩

omit [Scalar α] [LawfulScalar α] in
/-- What every draw satisfies, each of several draws does. -/
theorem drawTimes_spec {draw : γ → Nat × γ} {P : Nat → Prop} (h : ∀ state, P (draw state).1)
    (times : Nat) (state : γ) : (drawTimes draw times state).1.length = times ∧
      ∀ position ∈ (drawTimes draw times state).1, P position := by
  induction times generalizing state with
  | zero => simp [drawTimes]
  | succ times ih =>
    obtain ⟨hlength, hall⟩ := ih (draw state).2
    constructor
    · simp [drawTimes, hlength]
    · intro position hposition
      rcases List.mem_cons.mp hposition with rfl | hposition
      · exact h state
      · exact hall position hposition

omit [Scalar α] [LawfulScalar α] in
theorem picks_spec {candidates : List (Candidate α)} {Q : Candidate α → Prop}
    {positions : List Nat} (h : ∀ i ∈ positions, ∃ c, candidates[i]? = some c ∧ Q c) :
    Returns (positions.mapM (fetch candidates.toArray)) fun picks =>
      picks.length = positions.length ∧ ∀ c ∈ picks, c ∈ candidates ∧ Q c := by
  have hfetch : ∀ i ∈ positions, Returns (fetch candidates.toArray i) fun c =>
      c ∈ candidates ∧ Q c := by
    intro i hi
    obtain ⟨c, hc, hQ⟩ := h i hi
    exact ⟨c, fetch_eq_ok.mpr (by rw [List.getElem?_toArray, hc]),
      List.mem_of_getElem? hc, hQ⟩
  refine (Returns.mapM hfetch).of_ok (Ok.mapM ?_)
  intro i hi c hc
  obtain ⟨c', hc', hQ⟩ := hfetch i hi
  rw [hc] at hc'
  cases hc'
  exact hQ

/-- The points of a zone that were drawn from its candidates. -/
structure Drawn (count : Nat) (candidates : List (Candidate α)) (points : List (Coord α)) :
    Prop where
  length : points.length = count
  coord : ∀ point ∈ points, ∃ c ∈ candidates, c.coord = point
  usable : (∃ c ∈ candidates, isPositive c.weight = true) →
    ∀ point ∈ points, ∃ c ∈ candidates, isPositive c.weight = true ∧ c.coord = point

/-- The position of a candidate, and of one whose weight counts if there is any. -/
def Drawable (candidates : List (Candidate α)) (position : Nat) : Prop :=
  ∃ c, candidates[position]? = some c ∧
    ((∃ other ∈ candidates, isPositive other.weight = true) → isPositive c.weight = true)

/-- A draw among all candidates is made only when no weight counts. -/
theorem drawable_draw [LawfulSorting α] [LawfulNeutral α] {source : DrawSource α γ}
    (hsource : source.Lawful) {candidates : List (Candidate α)} (hne : candidates ≠ [])
    (hfinite : isFinite (totalWeight candidates) = true) (state : γ) :
    Drawable candidates ((if totalWeight candidates == 0 then source.index candidates.length
      else drawByWeight source (WeightScale.ofWeights (candidates.map Candidate.usableWeight)))
        state).1 := by
  split_ifs with hzero
  · have hlt := hsource.index_lt state (List.length_pos_iff.mpr hne)
    refine ⟨_, List.getElem?_eq_getElem hlt, fun hpositive => ?_⟩
    have hle := (LawfulSorting.beq_iff.mp hzero).1
    exact absurd (isPositive_totalWeight hpositive) (Scalar.not_lt_of_le hle)
  · have hpos : 0 < totalWeight candidates := by
      by_contra hnot
      have h0 := zero_le_totalWeight candidates
      have hle := Scalar.le_of_not_lt (Scalar.isNumber_left h0) (Scalar.isNumber_right h0) hnot
      exact hzero (LawfulSorting.beq_iff.mpr ⟨hle, h0⟩)
    obtain ⟨c, hc, hpositive⟩ := drawByWeight_spec hsource hfinite hpos state
    exact ⟨c, hc, fun _ => hpositive⟩

theorem drawn_drawPoints [LawfulSorting α] [LawfulNeutral α] {source : DrawSource α γ}
    (hsource : source.Lawful) (count : Nat) {candidates : List (Candidate α)}
    (hne : candidates ≠ []) (hfinite : isFinite (totalWeight candidates) = true) (state : γ) :
    Returns (drawPoints source count candidates state) fun drawn =>
      Drawn count candidates drawn.1 := by
  obtain ⟨hlength, hpositions⟩ := drawTimes_spec (P := Drawable candidates)
    (drawable_draw hsource hne hfinite) count state
  obtain ⟨picks, hpicks, hcount, hall⟩ := picks_spec hpositions
  rw [drawPoints]
  simp only [WeightScale.total_ofWeights, hfinite, Bool.not_true, Bool.false_eq_true, if_false]
  refine ⟨_, bind_eq_ok.mpr ⟨picks, hpicks, rfl⟩, ?_, ?_, ?_⟩
  · rw [List.length_map, hcount, hlength]
  · intro point hpoint
    obtain ⟨c, hc, rfl⟩ := List.mem_map.mp hpoint
    exact ⟨c, (hall c hc).1, rfl⟩
  · intro hpositive point hpoint
    obtain ⟨c, hc, rfl⟩ := List.mem_map.mp hpoint
    exact ⟨c, (hall c hc).1, (hall c hc).2 hpositive, rfl⟩

omit [LawfulScalar α] in
theorem drawPoints_of_infinite (source : DrawSource α γ) (count : Nat)
    {candidates : List (Candidate α)} (h : ¬ isFinite (totalWeight candidates) = true)
    (state : γ) : drawPoints source count candidates state = .error .weightTotal := by
  rw [drawPoints]
  simp [WeightScale.total_ofWeights, h]

/-! ## All zones -/

/-- The zones are drawn one after the other, each from its own candidates. -/
theorem drawn_drawZones [LawfulSorting α] [LawfulNeutral α] {source : DrawSource α γ}
    (hsource : source.Lawful) (count : Nat) {zones : ZoneTable (List (Candidate α))}
    (h : ∀ zone ∈ zones, zone.2 ≠ [] ∧ isFinite (totalWeight zone.2) = true) (state : γ) :
    Returns (drawZones source count zones state) fun table =>
      table.map Prod.fst = zones.map Prod.fst ∧
        ∀ drawn ∈ table, ∃ zone ∈ zones, zone.1 = drawn.1 ∧ Drawn count zone.2 drawn.2 := by
  induction zones generalizing state with
  | nil => exact ⟨[], rfl, rfl, by simp⟩
  | cons zone zones ih =>
    obtain ⟨hne, hfinite⟩ := h zone List.mem_cons_self
    refine Returns.bind (drawn_drawPoints hsource count hne hfinite state) ?_
    intro points hpoints
    refine Returns.bind (ih (fun z hz => h z (List.mem_cons_of_mem zone hz)) points.2) ?_
    rintro others ⟨hids, hothers⟩
    refine Returns.pure ⟨by simp [hids], ?_⟩
    intro drawn hdrawn
    rcases List.mem_cons.mp hdrawn with rfl | hdrawn
    · exact ⟨zone, List.mem_cons_self, rfl, hpoints⟩
    · obtain ⟨other, hother, hid, hspec⟩ := hothers drawn hdrawn
      exact ⟨other, List.mem_cons_of_mem zone hother, hid, hspec⟩

theorem drawZones_of_infinite [LawfulSorting α] [LawfulNeutral α] {source : DrawSource α γ}
    (hsource : source.Lawful) (count : Nat) {zones : ZoneTable (List (Candidate α))}
    (hne : ∀ zone ∈ zones, zone.2 ≠ [])
    (h : ∃ zone ∈ zones, ¬ isFinite (totalWeight zone.2) = true) (state : γ) :
    drawZones source count zones state = .error .weightTotal := by
  induction zones generalizing state with
  | nil => simp at h
  | cons zone zones ih =>
    rw [drawZones]
    by_cases hfinite : isFinite (totalWeight zone.2) = true
    · obtain ⟨drawn, hdrawn, -⟩ :=
        drawn_drawPoints hsource count (hne zone List.mem_cons_self) hfinite state
      have hrest : ∃ zone ∈ zones, ¬ isFinite (totalWeight zone.2) = true := by
        obtain ⟨other, hother, hinfinite⟩ := h
        rcases List.mem_cons.mp hother with rfl | hother
        · exact absurd hfinite hinfinite
        · exact ⟨other, hother, hinfinite⟩
      rw [hdrawn]
      simp only [bind, Except.bind, ih (fun z hz => hne z (List.mem_cons_of_mem zone hz)) hrest]
    · rw [drawPoints_of_infinite source count hfinite]
      rfl

end

section

variable {locate : Coord α → Option ZoneId} {locations : List (Candidate α)}

/-- The locations of a zone, in their order. -/
def candidatesOf (locate : Coord α → Option ZoneId) (locations : List (Candidate α))
    (id : ZoneId) : List (Candidate α) :=
  locations.filter fun location => locate location.coord = some id

omit [Scalar α] in
theorem entriesOf_assigned (id : ZoneId) : ZoneTable.entriesOf id (locations.filterMap
    fun location => (locate location.coord).map fun id => (id, location)) =
      candidatesOf locate locations id := by
  unfold candidatesOf ZoneTable.entriesOf
  induction locations with
  | nil => rfl
  | cons location locations ih =>
    cases hid : locate location.coord with
    | none => simp [hid, ih]
    | some other => by_cases h : other = id <;> simp [hid, h, ih]

omit [Scalar α] in
theorem lookup_assignLocations (id : ZoneId) : (assignLocations locate locations).lookup id =
    if candidatesOf locate locations id = [] then none
    else some (candidatesOf locate locations id) := by
  rw [assignLocations, ZoneTable.lookup_group, entriesOf_assigned]

omit [Scalar α] in
theorem mem_assignLocations {id : ZoneId} {candidates : List (Candidate α)} :
    (id, candidates) ∈ assignLocations locate locations ↔
      candidates ≠ [] ∧ candidates = candidatesOf locate locations id := by
  rw [assignLocations, ZoneTable.mem_group, entriesOf_assigned]

theorem samplePoints_eq (source : DrawSource α γ) (count : Nat) (start : γ)
    (log : List (Notice α)) : ((samplePoints source locations count start locate).run log).1 =
      drawZones source count (assignLocations locate locations) start := by
  unfold samplePoints
  dsimp only
  split <;> rfl

/-- The weights of every zone that count have a finite sum. -/
def FiniteWeights (locate : Coord α → Option ZoneId) (locations : List (Candidate α)) : Prop :=
  ∀ id, isFinite (totalWeight (candidatesOf locate locations id)) = true

/-- Zones without a location have the weight 0. -/
theorem finiteWeights_iff [LawfulScalar α] : FiniteWeights locate locations ↔
    ∀ zone ∈ assignLocations locate locations, isFinite (totalWeight zone.2) = true := by
  constructor
  · intro h zone hzone
    rw [(mem_assignLocations.mp hzone).2]
    exact h zone.1
  · intro h id
    by_cases hnil : candidatesOf locate locations id = []
    · rw [hnil]
      exact LawfulScalar.isFinite_zero
    · exact h _ (mem_assignLocations.mpr ⟨hnil, rfl⟩)

omit [Scalar α] in
theorem ascending_assignLocations : (assignLocations locate locations).Ascending :=
  ZoneTable.ascending_group _

omit [Scalar α] in
/-- The zones with a location. -/
theorem mem_ids_assignLocations {id : ZoneId} :
    id ∈ (assignLocations locate locations).map Prod.fst ↔
      ∃ location ∈ locations, locate location.coord = some id := by
  constructor
  · intro hid
    obtain ⟨zone, hzone, rfl⟩ := List.mem_map.mp hid
    obtain ⟨hne, heq⟩ := mem_assignLocations.mp hzone
    obtain ⟨location, hlocation⟩ := List.exists_mem_of_ne_nil _ hne
    rw [heq] at hlocation
    obtain ⟨hmem, hlocated⟩ := List.mem_filter.mp hlocation
    exact ⟨location, hmem, of_decide_eq_true hlocated⟩
  · rintro ⟨location, hmem, hlocated⟩
    have hcandidate : location ∈ candidatesOf locate locations id :=
      List.mem_filter.mpr ⟨hmem, decide_eq_true hlocated⟩
    exact List.mem_map.mpr ⟨_, mem_assignLocations.mpr ⟨List.ne_nil_of_mem hcandidate, rfl⟩, rfl⟩

/-- The table has exactly the zones that locations were assigned to, with points that were drawn
from these. -/
structure Sampled (locate : Coord α → Option ZoneId) (locations : List (Candidate α)) (count : Nat)
    (table : ZoneTable (List (Coord α))) : Prop where
  ascending : table.Ascending
  zones : ∀ id, id ∈ table.map Prod.fst ↔ ∃ location ∈ locations, locate location.coord = some id
  drawn : ∀ id points, (id, points) ∈ table →
    Drawn count (candidatesOf locate locations id) points

section

variable [LawfulScalar α] [LawfulSorting α] [LawfulNeutral α] {source : DrawSource α γ}

theorem sampled_of_finiteWeights (hsource : source.Lawful) (count : Nat) (start : γ)
    (h : FiniteWeights locate locations) :
    Returns (drawZones source count (assignLocations locate locations) start)
      (Sampled locate locations count) := by
  have hzones : ∀ zone ∈ assignLocations locate locations,
      zone.2 ≠ [] ∧ isFinite (totalWeight zone.2) = true :=
    fun zone hzone => ⟨(mem_assignLocations.mp hzone).1, finiteWeights_iff.mp h zone hzone⟩
  refine (drawn_drawZones hsource count hzones start).mono ?_
  rintro table ⟨hids, hdrawn⟩
  refine ⟨(ZoneTable.ascending_congr hids).mpr ascending_assignLocations, ?_, ?_⟩
  · intro id
    rw [hids, mem_ids_assignLocations]
  · intro id points hpoints
    obtain ⟨zone, hzone, hid, hspec⟩ := hdrawn _ hpoints
    rw [(mem_assignLocations.mp hzone).2, hid] at hspec
    exact hspec

theorem fails_of_not_finiteWeights (hsource : source.Lawful) (count : Nat) (start : γ)
    (h : ¬ FiniteWeights locate locations) :
    drawZones source count (assignLocations locate locations) start = .error .weightTotal := by
  have hne : ∀ zone ∈ assignLocations locate locations, zone.2 ≠ [] :=
    fun zone hzone => (mem_assignLocations.mp hzone).1
  simp only [finiteWeights_iff, not_forall] at h
  obtain ⟨zone, hzone, hinfinite⟩ := h
  exact drawZones_of_infinite hsource count hne ⟨zone, hzone, hinfinite⟩ start

end

/-- Points are drawn for all zones when the weights of every zone that count have a finite sum, and
for none otherwise. -/
theorem samplePoints_spec [LawfulScalar α] [LawfulSorting α] [LawfulNeutral α]
    {source : DrawSource α γ} (hsource : source.Lawful) (locate : Coord α → Option ZoneId)
    (locations : List (Candidate α)) (count : Nat) (start : γ) (log : List (Notice α)) :
    (FiniteWeights locate locations →
      Returns ((samplePoints source locations count start locate).run log).1
        (Sampled locate locations count)) ∧
    (¬ FiniteWeights locate locations →
      ((samplePoints source locations count start locate).run log).1 = .error .weightTotal) := by
  rw [samplePoints_eq]
  exact ⟨sampled_of_finiteWeights hsource count start, fails_of_not_finiteWeights hsource count start⟩

end

/-- A district in the west, one in the east, and places in neither. -/
def districtOf (coord : Coord Float) : Option ZoneId :=
  if coord.x < 1000 then some "west" else if coord.x < 5000 then some "east" else none

/-- One location of the west has a weight that counts, and none of the east. -/
def twoDistricts : List (Candidate Float) :=
  [⟨⟨10, 0⟩, 1⟩, ⟨⟨20, 0⟩, 0⟩, ⟨⟨1500, 0⟩, 0⟩, ⟨⟨1600, 0⟩, -1⟩, ⟨⟨9000, 0⟩, 5⟩]

theorem samplePoints_spec_twoDistricts : ∃ table,
    ((samplePoints Generator.source twoDistricts 3 (Generator.ofSeed 42) districtOf).run []).1 =
      .ok table ∧ table.lookup "west" = some [⟨10, 0⟩, ⟨10, 0⟩, ⟨10, 0⟩] := by
  have hfinite : FiniteWeights districtOf twoDistricts := by
    rw [finiteWeights_iff]
    decide +kernel
  have hwest : candidatesOf districtOf twoDistricts "west" = [⟨⟨10, 0⟩, 1⟩, ⟨⟨20, 0⟩, 0⟩] := by
    rfl
  obtain ⟨table, htable, hsampled⟩ := (samplePoints_spec Generator.lawful_source districtOf
    twoDistricts 3 (Generator.ofSeed 42) []).1 hfinite
  refine ⟨table, htable, ?_⟩
  have hzone : "west" ∈ table.map Prod.fst := (hsampled.zones "west").mpr
    ⟨⟨⟨10, 0⟩, 1⟩, List.mem_cons_self, rfl⟩
  obtain ⟨⟨id, points⟩, hpoints, hid⟩ := List.mem_map.mp hzone
  dsimp only at hid
  subst hid
  have hdrawn := hsampled.drawn "west" points hpoints
  rw [hwest] at hdrawn
  have hall : ∀ point ∈ points, point = ⟨10, 0⟩ := by
    intro point hpoint
    obtain ⟨c, hc, hpositive, rfl⟩ := hdrawn.usable
      ⟨⟨⟨10, 0⟩, 1⟩, List.mem_cons_self, rfl⟩ point hpoint
    simp only [List.mem_cons, List.not_mem_nil, or_false] at hc
    rcases hc with rfl | rfl
    · rfl
    · cases hpositive
  rw [← hsampled.ascending.mem_iff]
  rwa [List.eq_replicate_iff.mpr ⟨hdrawn.length, hall⟩] at hpoints

/-- Two locations whose weights are finite and have no finite sum. -/
def heavyPair : List (Candidate Float) := [⟨⟨0, 0⟩, 1.7e308⟩, ⟨⟨0, 0⟩, 1.7e308⟩]

/-- Too heavy locations leave no points for their zone. -/
theorem not_sampled_heavy : ¬ ∀ (locations : List (Candidate Float)) (count : Nat) (seed : UInt64)
    (locate : Coord Float → Option ZoneId),
    Returns ((samplePoints Generator.source locations count (Generator.ofSeed seed) locate).run []).1
      fun table => ∀ id, id ∈ table.map Prod.fst ↔
        ∃ location ∈ locations, locate location.coord = some id := by
  intro h
  obtain ⟨table, htable, -⟩ := h heavyPair 2 1 districtOf
  have hfails : ((samplePoints Generator.source heavyPair 2 (Generator.ofSeed 1) districtOf).run
      []).1.toOption.isNone = true := by decide +kernel
  rw [htable] at hfails
  cases hfails

end ZoneSkims
