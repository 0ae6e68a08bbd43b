import Mathlib.Data.List.Sort
import ZoneSkims.Proofs.Distance
import ZoneSkims.Proofs.Scalar.Product
import ZoneSkims.Proofs.Transit.Drafting

/-!
# Walks between near stops

The walks that are added lead from every stop to all others near enough. A search around each of the
stops finds these in some order, and as they are then sorted by their ids, nothing of that order is
left. Two searches find a pair of stops, one from each end, and they agree on the pair and on the time
of the walk as squares of differences are the same both ways.

* `NearPairs`: the pairs of stops near enough, in their order.
* `Finds`, `walksFound`: what a search may find, and the walks to it.
* `TimetableDraft.addNearTransfers_breaks_iff`: stops that cannot be searched.
* `TimetableDraft.addNearTransfers_spec`: the walks that are added.
-/

namespace ZoneSkims

open Scalar

variable {α : Type} [Scalar α]

/-! ## Near pairs -/

/-- The pairs of different stops at most as far apart as the square of a distance allows: those from
one stop after those from all stops before it, each by the stop at the other end. -/
structure NearPairs (stops : Array (Coord α)) (limit : α)
    (pairs : List (Fin stops.size × Fin stops.size)) : Prop where
  ascending : pairs.Pairwise (Prod.Lex (· < ·) (· < ·))
  mem_iff : ∀ i j, (i, j) ∈ pairs ↔ i ≠ j ∧ stops[i].squareDistance stops[j] ≤ limit

/-- The stops near to a stop, and not the stop itself. -/
def nearTo (stops : Array (Coord α)) (limit : α) (i : Fin stops.size) : List (Fin stops.size) :=
  (List.finRange stops.size).filter fun j => i ≠ j ∧ stops[i].squareDistance stops[j] ≤ limit

def nearPairs (stops : Array (Coord α)) (limit : α) : List (Fin stops.size × Fin stops.size) :=
  (List.finRange stops.size).flatMap fun i => (nearTo stops limit i).map fun j => (i, j)

theorem mem_nearTo {stops : Array (Coord α)} {limit : α} {i j : Fin stops.size} :
    j ∈ nearTo stops limit i ↔ i ≠ j ∧ stops[i].squareDistance stops[j] ≤ limit := by
  simp [nearTo]

theorem pairwise_nearTo (stops : Array (Coord α)) (limit : α) (i : Fin stops.size) :
    (nearTo stops limit i).Pairwise (· < ·) :=
  (List.pairwise_lt_finRange _).filter _

theorem nearPairs_spec (stops : Array (Coord α)) (limit : α) :
    NearPairs stops limit (nearPairs stops limit) where
  ascending := by
    rw [nearPairs, List.pairwise_flatMap]
    constructor
    · intro i _
      rw [List.pairwise_map]
      exact (pairwise_nearTo stops limit i).imp fun h => .right i h
    · refine (List.pairwise_lt_finRange _).imp ?_
      intro i i' hlt pair hpair pair' hpair'
      obtain ⟨j, -, rfl⟩ := List.mem_map.mp hpair
      obtain ⟨j', -, rfl⟩ := List.mem_map.mp hpair'
      exact .left j j' hlt
  mem_iff i j := by
    simp [nearPairs, mem_nearTo]

/-! ## Searches -/

/-- A search for the points near to a place finds each of them once, with its square distance. -/
structure Finds (stops : Array (Coord α)) (place : Coord α) (limit : α)
    (found : List (Nat × α)) : Prop where
  nodup : (found.map Prod.fst).Nodup
  mem_iff : ∀ i square, (i, square) ∈ found ↔
    ∃ p, stops[i]? = some p ∧ p.squareDistance place = square ∧ square ≤ limit

section

variable {stops : Array (Coord α)}

theorem within_of_finite_stops (hstops : ∀ place ∈ stops, place.isFinite = true)
    (place : Coord α) (limit : α) : Coord.within stops.toList place limit =
      stops.toList.zipIdx.filterMap fun (p, i) =>
        if p.squareDistance place ≤ limit then some (i, p.squareDistance place) else none := by
  apply Coord.within_of_finite
  rw [List.all_eq_true]
  intro p hp
  exact hstops p (Array.mem_toList_iff.mp hp)

theorem pairwise_within (hstops : ∀ place ∈ stops, place.isFinite = true) (place : Coord α)
    (limit : α) : (Coord.within stops.toList place limit).Pairwise fun a b => a.1 < b.1 := by
  rw [within_of_finite_stops hstops]
  refine (pairwise_zipIdx stops.toList).filterMap _ ?_
  rintro ⟨p, i⟩ ⟨p', i'⟩ hlt ⟨j, square⟩ hsome ⟨j', square'⟩ hsome'
  dsimp only at hsome hsome' hlt ⊢
  split_ifs at hsome hsome'
  cases hsome
  cases hsome'
  exact hlt

/-- Among finite points nothing is overlooked. -/
theorem finds_within (hstops : ∀ place ∈ stops, place.isFinite = true) (place : Coord α)
    (limit : α) : Finds stops place limit (Coord.within stops.toList place limit) where
  nodup := by
    rw [List.Nodup, List.pairwise_map]
    exact (pairwise_within hstops place limit).imp fun h => Nat.ne_of_lt h
  mem_iff i square := by
    rw [within_of_finite_stops hstops]
    simp only [List.mem_filterMap, Prod.exists, List.mem_zipIdx_iff_getElem?, Array.getElem?_toList]
    constructor
    · rintro ⟨p, j, hp, hsome⟩
      split_ifs at hsome with hle
      cases hsome
      exact ⟨p, hp, rfl, hle⟩
    · rintro ⟨p, hp, rfl, hle⟩
      exact ⟨p, i, hp, if_pos hle⟩

end

/-- The walk from a stop to one at a square distance. -/
def walkTo (walkSpeed beelineFactor : α) (source : Nat) (found : Nat × α) : StopId × Transfer α :=
  (Id.ofIndex source, ⟨Id.ofIndex found.1, sqrt found.2 * beelineFactor / walkSpeed⟩)

/-- The walks from a stop to all others that a search has found, sorted by these. -/
def walksFound (walkSpeed beelineFactor : α) (source : Nat) (found : List (Nat × α)) :
    List (StopId × Transfer α) :=
  ((found.filter fun near => near.1 ≠ source).mergeSort fun a b => a.1 ≤ b.1).map
    (walkTo walkSpeed beelineFactor source)

/-- The walk between the stops of a pair. -/
def walkBetween (stops : Array (Coord α)) (walkSpeed beelineFactor : α)
    (pair : Fin stops.size × Fin stops.size) : StopId × Transfer α :=
  (Id.ofIndex pair.1, ⟨Id.ofIndex pair.2,
    stops[pair.1].distance stops[pair.2] * beelineFactor / walkSpeed⟩)

section

variable [LawfulSquare α] {stops : Array (Coord α)} {limit : α} {i : Fin stops.size}

/-- A list of what is near to a stop, without the stop itself and in ascending order, is that of the
stops near to it. -/
theorem eq_nearTo {found : List (Nat × α)} (hascending : found.Pairwise fun a b => a.1 < b.1)
    (hmem : ∀ j square, (j, square) ∈ found ↔ j ≠ i ∧
      ∃ p, stops[j]? = some p ∧ p.squareDistance stops[i] = square ∧ square ≤ limit) :
    found = (nearTo stops limit i).map fun j => (j.val, stops[i].squareDistance stops[j]) := by
  have hirrefl : Std.Irrefl fun a b : Nat × α => a.1 < b.1 := ⟨fun _ => Nat.lt_irrefl _⟩
  have hantisymm : Std.Antisymm fun a b : Nat × α => a.1 < b.1 :=
    ⟨fun _ _ hlt hgt => absurd hgt (Nat.lt_asymm hlt)⟩
  apply List.Pairwise.eq_of_mem_iff hascending
  · rw [List.pairwise_map]
    exact (pairwise_nearTo stops limit i).imp fun h => h
  · rintro ⟨j, square⟩
    rw [hmem]
    simp only [List.mem_map, mem_nearTo, Prod.mk.injEq]
    constructor
    · rintro ⟨hne, p, hp, rfl, hle⟩
      obtain ⟨hj, rfl⟩ := Array.getElem?_eq_some_iff.mp hp
      rw [Coord.squareDistance_comm] at hle ⊢
      exact ⟨⟨j, hj⟩, ⟨fun h => hne (congrArg Fin.val h).symm, hle⟩, rfl, rfl⟩
    · rintro ⟨k, ⟨hne, hle⟩, rfl, rfl⟩
      refine ⟨fun h => hne (Fin.ext h.symm), stops[k], Array.getElem?_eq_getElem k.isLt, ?_, hle⟩
      exact Coord.squareDistance_comm _ _

omit [LawfulSquare α] in
theorem map_walkTo (walkSpeed beelineFactor : α) :
    ((nearTo stops limit i).map fun j => (j.val, stops[i].squareDistance stops[j])).map
        (walkTo walkSpeed beelineFactor i) =
      (nearTo stops limit i).map fun j => walkBetween stops walkSpeed beelineFactor (i, j) :=
  List.map_map

/-- Nothing of the order of a search is left in the walks. -/
theorem walksFound_eq {found : List (Nat × α)} (h : Finds stops stops[i] limit found)
    (walkSpeed beelineFactor : α) : walksFound walkSpeed beelineFactor i found =
      (nearTo stops limit i).map fun j => walkBetween stops walkSpeed beelineFactor (i, j) := by
  obtain ⟨others, hothers⟩ : ∃ others, others = found.filter fun near => near.1 ≠ i.val := ⟨_, rfl⟩
  have hperm := List.mergeSort_perm others fun a b => a.1 ≤ b.1
  have hsorted : (others.mergeSort fun a b => a.1 ≤ b.1).Pairwise fun a b => a.1 ≤ b.1 := by
    have hpairwise : (others.mergeSort fun a b => a.1 ≤ b.1).Pairwise
        fun a b => decide (a.1 ≤ b.1) = true :=
      List.pairwise_mergeSort (by simp; omega) (by simp; omega) others
    simpa only [decide_eq_true_eq] using hpairwise
  have hdistinct : (others.mergeSort fun a b => a.1 ≤ b.1).Pairwise fun a b => a.1 ≠ b.1 := by
    rw [← List.pairwise_map, ← List.Nodup, (hperm.map Prod.fst).nodup_iff, hothers]
    exact h.nodup.sublist (List.filter_sublist.map Prod.fst)
  have hascending := (hsorted.and hdistinct).imp fun h => Nat.lt_of_le_of_ne h.1 h.2
  rw [walksFound, ← hothers, eq_nearTo hascending, map_walkTo]
  intro j square
  rw [hperm.mem_iff, hothers, List.mem_filter, h.mem_iff, decide_eq_true_eq, and_comm]

end

/-! ## Walks -/

namespace TimetableDraft

variable {draft : TimetableDraft α}

/-- Among finite stops a search around a stop finds what is near to it, in the order of the stops. -/
theorem walksFrom_eq [LawfulSquare α] (hstops : ∀ place ∈ draft.stops, place.isFinite = true)
    (maxDistance walkSpeed beelineFactor : α) (i : Fin draft.stops.size) :
    draft.walksFrom maxDistance walkSpeed beelineFactor i draft.stops[i] =
      (nearTo draft.stops (maxDistance * maxDistance) i).map fun j =>
        walkBetween draft.stops walkSpeed beelineFactor (i, j) := by
  have hfinds := finds_within hstops draft.stops[i] (maxDistance * maxDistance)
  have hnear : ((Coord.within draft.stops.toList draft.stops[i] (maxDistance * maxDistance)).filter
      fun near => near.1 ≠ i.val) = (nearTo draft.stops (maxDistance * maxDistance) i).map
        fun j => (j.val, draft.stops[i].squareDistance draft.stops[j]) := by
    apply eq_nearTo ((pairwise_within hstops _ _).filter _)
    intro j square
    rw [List.mem_filter, hfinds.mem_iff, decide_eq_true_eq, and_comm]
  have hfrom : draft.walksFrom maxDistance walkSpeed beelineFactor i draft.stops[i] =
      ((Coord.within draft.stops.toList draft.stops[i] (maxDistance * maxDistance)).filter
        fun near => near.1 ≠ i.val).map (walkTo walkSpeed beelineFactor i) := rfl
  rw [hfrom, hnear, map_walkTo]

/-- The walks from all stops are those between the pairs of near stops. -/
theorem nearWalks_eq [LawfulSquare α] (hstops : ∀ place ∈ draft.stops, place.isFinite = true)
    (maxDistance walkSpeed beelineFactor : α) :
    draft.nearWalks maxDistance walkSpeed beelineFactor =
      (nearPairs draft.stops (maxDistance * maxDistance)).map
        (walkBetween draft.stops walkSpeed beelineFactor) := by
  rw [nearWalks, zipIdx_toList, List.flatMap_map, nearPairs, List.map_flatMap]
  apply List.flatMap_congr
  intro i _
  rw [List.map_map]
  exact walksFrom_eq hstops maxDistance walkSpeed beelineFactor i

/-- A walk between finite stops takes no negative or undefined time. -/
theorem isMeasure_walkTime [LawfulScalar α] [LawfulSum α] [LawfulMeasure α] [LawfulLength α]
    {a b : Coord α} {walkSpeed beelineFactor : α} (ha : a.isFinite = true)
    (hb : b.isFinite = true) (hspeed : isPositive walkSpeed = true)
    (hfactor : isPositive beelineFactor = true) :
    IsMeasure (a.distance b * beelineFactor / walkSpeed) := by
  rw [isPositive_iff] at hspeed hfactor
  have hsquare := Coord.isMeasure_squareDistance (Coord.isUndefined_of_isFinite ha) hb
  have hdistance : IsMeasure (a.distance b) :=
    ⟨LawfulLength.isNumber_sqrt hsquare, LawfulScalar.not_sqrt_lt_zero _⟩
  have hbeeline : IsMeasure (a.distance b * beelineFactor) :=
    ⟨LawfulLength.isNumber_mul hdistance.isNumber hfactor.1 hfactor.2,
      LawfulScalar.not_mul_lt_zero hdistance.not_lt_zero
        (Scalar.not_lt_of_le (Scalar.le_of_lt hfactor.2))⟩
  exact ⟨LawfulMeasure.isNumber_div hbeeline.isNumber hspeed.1 hspeed.2,
    LawfulScalar.not_div_lt_zero hbeeline.not_lt_zero hspeed.2⟩

/-- Finite stops can be searched, so that parameters that make sense are all that it takes. -/
theorem addNearTransfers_of_valid [LawfulScalar α]
    (hstops : ∀ place ∈ draft.stops, place.isFinite = true)
    {maxDistance walkSpeed beelineFactor : α}
    (hvalid : requireWalks maxDistance walkSpeed beelineFactor = .ok ()) :
    draft.addNearTransfers maxDistance walkSpeed beelineFactor =
      .ok ((draft.nearWalks maxDistance walkSpeed beelineFactor).length,
        { draft with
          transfers := draft.transfers ++
            (draft.nearWalks maxDistance walkSpeed beelineFactor).toArray }) := by
  have horder : Coord.requireOrder draft.stops.toList = .ok () :=
    Coord.requireOrder_eq_ok_iff.mpr (.inr fun place hplace =>
      Coord.isUndefined_of_isFinite (hstops place (Array.mem_toList_iff.mp hplace)))
  exact addNearTransfers_eq_ok_iff.mpr ⟨hvalid, horder, rfl, rfl⟩

theorem addNearTransfers_of_invalid {maxDistance walkSpeed beelineFactor : α}
    (hinvalid : requireWalks maxDistance walkSpeed beelineFactor ≠ .ok ())
    (draft : TimetableDraft α) : ∃ fault,
      draft.addNearTransfers maxDistance walkSpeed beelineFactor =
        .error (.fault (.badParameter fault)) := by
  obtain ⟨fault, hfault⟩ := exists_of_requireWalks_ne hinvalid
  refine ⟨fault, ?_⟩
  rw [addNearTransfers, hfault]
  rfl

/-- Where walks make sense, looking for them breaks on the stops of which no timetable is built. -/
theorem addNearTransfers_breaks_iff {maxDistance walkSpeed beelineFactor : α}
    (hvalid : requireWalks maxDistance walkSpeed beelineFactor = .ok ()) {b : Breach} :
    draft.addNearTransfers maxDistance walkSpeed beelineFactor = .error (.breach b) ↔
      draft.build = .error b := by
  rw [addNearTransfers, hvalid, build]
  cases Coord.requireOrder draft.stops.toList with
  | ok _ => exact iff_of_false nofun nofun
  | error found => constructor <;> intro h <;> cases h <;> rfl

/-- Between finite stops exactly the near pairs are added, after all walks of the draft, in their
order and with their number. They are the same for every order in which searches find stops, no walk
takes a negative time, and each has one back that takes as long. With parameters that make no sense
nothing is added. -/
theorem addNearTransfers_spec [LawfulScalar α] [LawfulSum α] [LawfulMeasure α] [LawfulSquare α]
    [LawfulLength α] (draft : TimetableDraft α)
    (hstops : ∀ place ∈ draft.stops, place.isFinite = true)
    (maxDistance walkSpeed beelineFactor : α) :
    (isPositive walkSpeed = true ∧ isPositive beelineFactor = true ∧
      isNonnegative maxDistance = true →
        ∃ pairs, NearPairs draft.stops (maxDistance * maxDistance) pairs ∧
          draft.addNearTransfers maxDistance walkSpeed beelineFactor =
            .ok (pairs.length,
              { draft with
                transfers := draft.transfers ++
                  (pairs.map (walkBetween draft.stops walkSpeed beelineFactor)).toArray }) ∧
          (∀ find : Fin draft.stops.size → List (Nat × α),
            (∀ i, Finds draft.stops draft.stops[i] (maxDistance * maxDistance) (find i)) →
              pairs.map (walkBetween draft.stops walkSpeed beelineFactor) =
                (List.finRange draft.stops.size).flatMap fun i : Fin draft.stops.size =>
                  walksFound walkSpeed beelineFactor i (find i)) ∧
          ∀ pair ∈ pairs, pair.swap ∈ pairs ∧
            0 ≤ (walkBetween draft.stops walkSpeed beelineFactor pair).2.walkTime ∧
            (walkBetween draft.stops walkSpeed beelineFactor pair.swap).2.walkTime =
              (walkBetween draft.stops walkSpeed beelineFactor pair).2.walkTime) ∧
    (¬ (isPositive walkSpeed = true ∧ isPositive beelineFactor = true ∧
      isNonnegative maxDistance = true) →
        (∃ fault, draft.addNearTransfers maxDistance walkSpeed beelineFactor =
          .error (.fault (.badParameter fault))) ∧
        DraftStep.perform draft (.addNearTransfers maxDistance walkSpeed beelineFactor) =
          draft) := by
  constructor
  · intro hvalid
    have hpairs := nearPairs_spec draft.stops (maxDistance * maxDistance)
    refine ⟨_, hpairs, ?_, ?_, ?_⟩
    · rw [addNearTransfers_of_valid hstops (requireWalks_eq_ok_iff.mpr hvalid),
        nearWalks_eq hstops, List.length_map]
    · intro find hfind
      rw [nearPairs, List.map_flatMap]
      apply List.flatMap_congr
      intro i _
      rw [List.map_map]
      exact (walksFound_eq (hfind i) walkSpeed beelineFactor).symm
    · rintro ⟨i, j⟩ hpair
      obtain ⟨hne, hnear⟩ := (hpairs.mem_iff i j).mp hpair
      refine ⟨(hpairs.mem_iff j i).mpr ⟨hne.symm, ?_⟩, ?_, ?_⟩
      · rwa [Coord.squareDistance_comm]
      · exact (isMeasure_walkTime (hstops _ (Array.getElem_mem i.isLt))
          (hstops _ (Array.getElem_mem j.isLt)) hvalid.1 hvalid.2.1).zero_le
      · simp only [walkBetween, Prod.swap, Coord.distance_comm draft.stops[j]]
  · intro hinvalid
    obtain ⟨fault, hfault⟩ :=
      addNearTransfers_of_invalid (mt requireWalks_eq_ok_iff.mp hinvalid) draft
    refine ⟨⟨fault, hfault⟩, ?_⟩
    rw [DraftStep.perform, DraftStep.apply, hfault]
    rfl

end TimetableDraft

/-- Two stops at the same place, one at 30 m from both, and one far away. -/
def fourStops : TimetableDraft Float :=
  { TimetableDraft.empty with
    stops := #[⟨0, 0⟩, ⟨30, 0⟩, ⟨0, 0⟩, ⟨900, 0⟩]
    transfers := #[(⟨3⟩, ⟨⟨0⟩, 600⟩)] }

theorem addNearTransfers_spec_fourStops : ∃ pairs,
    NearPairs fourStops.stops (100 * 100) pairs ∧ pairs.length = 6 ∧
      fourStops.addNearTransfers 100 2 1.5 = .ok (pairs.length,
        { fourStops with
          transfers := fourStops.transfers ++
            (pairs.map (walkBetween fourStops.stops 2 1.5)).toArray }) := by
  have hstops : ∀ place ∈ fourStops.stops, place.isFinite = true := by
    simp only [fourStops, List.mem_toArray, List.forall_mem_cons]
    decide +kernel
  obtain ⟨pairs, hpairs, hadd, -⟩ := (TimetableDraft.addNearTransfers_spec fourStops hstops 100 2
    1.5).1 (by decide +kernel)
  have hcount : ((fourStops.addNearTransfers 100 2 1.5).toOption.map Prod.fst) = some 6 := by
    decide +kernel
  rw [hadd] at hcount
  exact ⟨pairs, hpairs, Option.some.inj hcount, hadd⟩

end ZoneSkims
