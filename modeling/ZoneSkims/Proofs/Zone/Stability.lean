import ZoneSkims.Proofs.Zone.Sampling

/-!
# Stable samples

One stream of random numbers serves all zones, and how much of it a zone uses depends on its
locations. So a change to a zone can change the points of all later ones, but of none before: the
stream has then been used as before, zone by zone. Within the same stream the points of a zone depend
on its locations and their order alone, as the table of locations keeps nothing else of the list.

What is excluded is again a total that is not finite, which takes the points of all zones away
(`not_stable_heavy`).

* `drawZones_append`: the points of the first zones do not depend on the others.
* `samplePoints_stable`: the points that a change of the locations leaves as they are.
-/

namespace ZoneSkims

variable {α γ : Type} [Scalar α]

section

variable {source : DrawSource α γ} {count : Nat}

theorem map_fst_of_drawZones {zones : ZoneTable (List (Candidate α))}
    {table : ZoneTable (List (Coord α))} {state : γ}
    (h : drawZones source count zones state = .ok table) :
    table.map Prod.fst = zones.map Prod.fst := by
  induction zones generalizing table state with
  | nil =>
    cases h
    rfl
  | cons zone zones ih =>
    obtain ⟨points, -, h⟩ := bind_eq_ok.mp h
    obtain ⟨others, hothers, h⟩ := bind_eq_ok.mp h
    cases h
    rw [List.map_cons, List.map_cons, ih hothers]

/-- The points of the first zones do not depend on the zones that follow them. -/
theorem drawZones_append {first later later' : ZoneTable (List (Candidate α))}
    {table table' : ZoneTable (List (Coord α))} {state : γ}
    (h : drawZones source count (first ++ later) state = .ok table)
    (h' : drawZones source count (first ++ later') state = .ok table') :
    ∃ front back back', table = front ++ back ∧ table' = front ++ back' ∧
      back.map Prod.fst = later.map Prod.fst ∧ back'.map Prod.fst = later'.map Prod.fst := by
  induction first generalizing table table' state with
  | nil => exact ⟨[], table, table', rfl, rfl, map_fst_of_drawZones h, map_fst_of_drawZones h'⟩
  | cons zone first ih =>
    obtain ⟨points, hpoints, h⟩ := bind_eq_ok.mp h
    obtain ⟨others, hothers, h⟩ := bind_eq_ok.mp h
    obtain ⟨points', hpoints', h'⟩ := bind_eq_ok.mp h'
    obtain ⟨others', hothers', h'⟩ := bind_eq_ok.mp h'
    -- both draw the points of this zone from the same state, and go on from the same one
    obtain rfl : points = points' := Except.ok.inj (hpoints.symm.trans hpoints')
    cases h
    cases h'
    obtain ⟨front, back, back', rfl, rfl, hback, hback'⟩ := ih hothers hothers'
    exact ⟨_ :: front, back, back', rfl, rfl, hback, hback'⟩

/-- The points of all zones up to one do not depend on the later zones. -/
theorem lookup_of_drawZones {zones zones' : ZoneTable (List (Candidate α))}
    (hzones : zones.Ascending) (hzones' : zones'.Ascending) {last : ZoneId}
    (hsame : ∀ id ≤ last, zones.lookup id = zones'.lookup id)
    {table table' : ZoneTable (List (Coord α))} {state : γ}
    (h : drawZones source count zones state = .ok table)
    (h' : drawZones source count zones' state = .ok table') :
    ∀ id ≤ last, table.lookup id = table'.lookup id := by
  obtain ⟨later, hsplit, hlater⟩ := hzones.split last
  obtain ⟨later', hsplit', hlater'⟩ := hzones'.split last
  rw [hsplit] at h
  rw [hsplit', ← hzones.upTo_eq hzones' hsame] at h'
  obtain ⟨front, back, back', rfl, rfl, hback, hback'⟩ := drawZones_append h h'
  have hnone {entries : ZoneTable (List (Coord α))} {zones : ZoneTable (List (Candidate α))}
      (hids : entries.map Prod.fst = zones.map Prod.fst) (hlast : ∀ zone ∈ zones, last < zone.1)
      {id : ZoneId} (hid : id ≤ last) : entries.lookup id = none := by
    apply ZoneTable.lookup_eq_none
    intro entry hentry
    have hmem : entry.1 ∈ zones.map Prod.fst := hids ▸ List.mem_map_of_mem hentry
    obtain ⟨zone, hzone, heq⟩ := List.mem_map.mp hmem
    exact heq ▸ (lt_of_le_of_lt hid (hlast zone hzone)).ne'
  intro id hid
  rw [List.lookup_append, List.lookup_append, hnone hback hlater hid, hnone hback' hlater' hid]

end

/-- A change that leaves every zone its locations, in their order, leaves everything as it is: one
that moves locations past those of other zones, or is about locations without a zone. A change that
leaves all zones up to one their locations leaves these zones their points, as long as the weights of
every zone have a finite sum before and after. -/
theorem samplePoints_stable [LawfulScalar α] [LawfulSorting α] [LawfulNeutral α]
    {source : DrawSource α γ} (hsource : source.Lawful) (locate : Coord α → Option ZoneId)
    (before after : List (Candidate α)) (count : Nat) (start : γ) (log : List (Notice α)) :
    ((∀ id, candidatesOf locate before id = candidatesOf locate after id) →
      ((samplePoints source before count start locate).run log).1 =
        ((samplePoints source after count start locate).run log).1) ∧
    ∀ last, (∀ id ≤ last, candidatesOf locate before id = candidatesOf locate after id) →
      FiniteWeights locate before → FiniteWeights locate after →
        ∃ table table', ((samplePoints source before count start locate).run log).1 = .ok table ∧
          ((samplePoints source after count start locate).run log).1 = .ok table' ∧
            ∀ id ≤ last, table.lookup id = table'.lookup id := by
  rw [samplePoints_eq, samplePoints_eq]
  constructor
  · intro hsame
    have hassigned : assignLocations locate before = assignLocations locate after := by
      apply ascending_assignLocations.ext ascending_assignLocations
      intro id
      rw [lookup_assignLocations, lookup_assignLocations, hsame]
    rw [hassigned]
  · intro last hsame hbefore hafter
    obtain ⟨table, htable, -⟩ := sampled_of_finiteWeights hsource count start hbefore
    obtain ⟨table', htable', -⟩ := sampled_of_finiteWeights hsource count start hafter
    refine ⟨table, table', htable, htable', ?_⟩
    apply lookup_of_drawZones ascending_assignLocations ascending_assignLocations _ htable htable'
    intro id hid
    rw [lookup_assignLocations, lookup_assignLocations, hsame id hid]

/-- The location in the east has the west after it. -/
def eastBeforeWest : List (Candidate Float) := [⟨⟨1500, 0⟩, 1⟩, ⟨⟨10, 0⟩, 1⟩]

/-- A location without a zone, and one more of the west. -/
def westGrows : List (Candidate Float) :=
  [⟨⟨20, 0⟩, 3⟩, ⟨⟨9000, 0⟩, 5⟩, ⟨⟨10, 0⟩, 1⟩, ⟨⟨1500, 0⟩, 1⟩]

theorem west_ne_of_le_east {id : ZoneId} (h : id ≤ "east") : "west" ≠ id := by
  rintro rfl
  revert h
  decide +kernel

theorem samplePoints_stable_westGrows : ∃ table table',
    ((samplePoints Generator.source eastBeforeWest 3 (Generator.ofSeed 42) districtOf).run []).1 =
      .ok table ∧
    ((samplePoints Generator.source westGrows 3 (Generator.ofSeed 42) districtOf).run []).1 =
      .ok table' ∧ table.lookup "east" = table'.lookup "east" := by
  have hbefore : FiniteWeights districtOf eastBeforeWest := by
    rw [finiteWeights_iff]
    decide +kernel
  have hafter : FiniteWeights districtOf westGrows := by
    rw [finiteWeights_iff]
    decide +kernel
  have hsame : ∀ id ≤ "east",
      candidatesOf districtOf eastBeforeWest id = candidatesOf districtOf westGrows id := by
    intro id hid
    have hwest := west_ne_of_le_east hid
    have h20 : districtOf ⟨20, 0⟩ = some "west" := rfl
    have h9000 : districtOf ⟨9000, 0⟩ = none := rfl
    have h10 : districtOf ⟨10, 0⟩ = some "west" := rfl
    simp [candidatesOf, eastBeforeWest, westGrows, List.filter_cons, h20, h9000, h10, hwest]
  obtain ⟨table, table', htable, htable', hlookup⟩ := (samplePoints_stable Generator.lawful_source
    districtOf eastBeforeWest westGrows 3 (Generator.ofSeed 42) []).2 "east" hsame hbefore hafter
  exact ⟨table, table', htable, htable', hlookup "east" (le_refl _)⟩

/-- Too heavy locations of the west take the points of the east away. -/
theorem not_stable_heavy : ¬ ∀ (locate : Coord Float → Option ZoneId)
    (before after : List (Candidate Float)) (count : Nat) (seed : UInt64) (last : ZoneId),
    (∀ id ≤ last, candidatesOf locate before id = candidatesOf locate after id) →
      ∀ table, ((samplePoints Generator.source before count (Generator.ofSeed seed) locate).run
          []).1 = .ok table →
        Returns ((samplePoints Generator.source after count (Generator.ofSeed seed) locate).run []).1
          fun table' => ∀ id ≤ last, table.lookup id = table'.lookup id := by
  intro h
  have hsame : ∀ id ≤ "east", candidatesOf districtOf [⟨⟨1500, 0⟩, 1⟩] id =
      candidatesOf districtOf (⟨⟨1500, 0⟩, 1⟩ :: heavyPair) id := by
    intro id hid
    have hwest := west_ne_of_le_east hid
    have h0 : districtOf ⟨0, 0⟩ = some "west" := rfl
    simp [candidatesOf, heavyPair, List.filter_cons, h0, hwest]
  have hfinite : FiniteWeights districtOf [⟨⟨1500, 0⟩, 1⟩] := by
    rw [finiteWeights_iff]
    decide +kernel
  obtain ⟨table, htable, -⟩ :=
    sampled_of_finiteWeights Generator.lawful_source 2 (Generator.ofSeed 1) hfinite
  obtain ⟨table', htable', -⟩ := h districtOf _ _ 2 1 "east" hsame table htable
  have hfails : ((samplePoints Generator.source (⟨⟨1500, 0⟩, 1⟩ :: heavyPair) 2
      (Generator.ofSeed 1) districtOf).run []).1.toOption.isNone = true := by decide +kernel
  rw [htable'] at hfails
  cases hfails

end ZoneSkims
