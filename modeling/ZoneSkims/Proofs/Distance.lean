import ZoneSkims.Coord.Search
import ZoneSkims.Proofs.Positions
import ZoneSkims.Proofs.Scalar.Cells

/-!
# Distances

Two points are as far from each other both ways, and the distance of finite ones is a number that is
not negative, although it may be infinite. The search for the nearest point looks at the finite
distances alone, and still no defined point is nearer than the one that it finds: the others are
infinitely far away.

* `Coord.distance_comm`: the distance both ways.
* `Coord.isMeasure_squareDistance`: distances are defined.
* `Coord.leastBy_spec`: the first element with the least measure.
* `Coord.nearest?_spec`: what the search for the nearest point finds, and when it finds nothing.
-/

namespace ZoneSkims.Coord

variable {α : Type} [Scalar α]

section

variable [LawfulSquare α]

theorem squareDistance_comm (a b : Coord α) : a.squareDistance b = b.squareDistance a := by
  simp only [squareDistance, LawfulSquare.mul_self_sub_comm b.x, LawfulSquare.mul_self_sub_comm b.y]

theorem distance_comm (a b : Coord α) : a.distance b = b.distance a := by
  rw [distance, squareDistance_comm, distance]

end

variable [LawfulScalar α]

theorem isUndefined_of_isFinite {p : Coord α} (h : p.isFinite = true) : p.isUndefined = false := by
  rw [isFinite, Bool.and_eq_true] at h
  rw [isUndefined, Bool.or_eq_false_iff]
  exact ⟨Scalar.isNumber_of_isFinite h.1, Scalar.isNumber_of_isFinite h.2⟩

/-- The square distance between a point and a finite one is undefined only where the point is. -/
theorem isMeasure_squareDistance [LawfulSum α] [LawfulMeasure α] {p place : Coord α}
    (hp : p.isUndefined = false) (hplace : place.isFinite = true) :
    Scalar.IsMeasure (p.squareDistance place) := by
  rw [isUndefined, Bool.or_eq_false_iff] at hp
  rw [isFinite, Bool.and_eq_true] at hplace
  exact (LawfulMeasure.isMeasure_mul_self (LawfulMeasure.isNumber_sub hplace.1 hp.1)).add
    (LawfulMeasure.isMeasure_mul_self (LawfulMeasure.isNumber_sub hplace.2 hp.2))

/-! ## The nearest point -/

/-- The first element with the least measure: those in front of it have a greater measure, and none
behind it has a smaller one. -/
theorem leastBy_spec {γ : Type} (measure : γ → α) {best : γ} {xs : List γ}
    (hnumber : ∀ x ∈ best :: xs, Scalar.IsNumber (measure x)) :
    ∃ before after, best :: xs = before ++ leastBy measure best xs :: after ∧
      (∀ x ∈ before, measure (leastBy measure best xs) < measure x) ∧
      ∀ x ∈ after, measure (leastBy measure best xs) ≤ measure x := by
  induction xs using List.reverseRecOn with
  | nil => exact ⟨[], [], rfl, List.forall_mem_nil _, List.forall_mem_nil _⟩
  | append_singleton xs x ih =>
    rw [← List.cons_append, List.forall_mem_append, List.forall_mem_singleton] at hnumber
    obtain ⟨before, after, hsplit, hbefore, hafter⟩ := ih hnumber.1
    have hleast : leastBy measure best xs ∈ best :: xs := by simp [hsplit]
    have hstep : leastBy measure best (xs ++ [x]) =
        if measure x < measure (leastBy measure best xs) then x else leastBy measure best xs := by
      rw [leastBy, List.foldl_append]
      rfl
    rw [hstep, ← List.cons_append]
    split
    case isTrue hless =>
      refine ⟨best :: xs, [], rfl, ?_, List.forall_mem_nil _⟩
      rw [hsplit, List.forall_mem_append, List.forall_mem_cons]
      exact ⟨fun y hy => Scalar.lt_trans hless (hbefore y hy), hless,
        fun y hy => Scalar.lt_of_lt_of_le hless (hafter y hy)⟩
    case isFalse hnot =>
      refine ⟨before, after ++ [x], by simp [hsplit], hbefore, ?_⟩
      rw [List.forall_mem_append, List.forall_mem_singleton]
      exact ⟨hafter, Scalar.le_of_not_lt hnumber.2 (hnumber.1 _ hleast) hnot⟩

/-- Of ascending positions with the least scalar it is the first. -/
theorem leastBy_fst_spec {near : α × Nat} {others : List (α × Nat)}
    (hordered : (near :: others).Pairwise fun a b => a.2 < b.2)
    (hnumber : ∀ entry ∈ near :: others, Scalar.IsNumber entry.1) :
    leastBy Prod.fst near others ∈ near :: others ∧
      ∀ entry ∈ near :: others, (leastBy Prod.fst near others).1 ≤ entry.1 ∧
        (entry.2 < (leastBy Prod.fst near others).2 →
          (leastBy Prod.fst near others).1 < entry.1) := by
  obtain ⟨before, after, hsplit, hbefore, hafter⟩ := leastBy_spec Prod.fst hnumber
  generalize leastBy Prod.fst near others = least at *
  have hleast : least ∈ near :: others := by simp [hsplit]
  have hself := Scalar.le_refl (hnumber least hleast)
  rw [hsplit, List.pairwise_append, List.pairwise_cons] at hordered
  refine ⟨hleast, ?_⟩
  rw [hsplit, List.forall_mem_append, List.forall_mem_cons]
  refine ⟨fun entry hentry => ?_, ⟨hself, fun hlt => absurd hlt (Nat.lt_irrefl _)⟩,
    fun entry hentry => ?_⟩
  · have hlt := hbefore entry hentry
    exact ⟨Scalar.le_of_lt hlt, fun _ => hlt⟩
  · have hlater : least.2 < entry.2 := hordered.2.1.1 entry hentry
    exact ⟨hafter entry hentry, fun hlt => absurd hlt (Nat.lt_asymm hlater)⟩

omit [LawfulScalar α] in
theorem mem_squaresTo {points : List (Coord α)} {place : Coord α} {entry : α × Nat} :
    entry ∈ squaresTo points place ↔
      ∃ p, points[entry.2]? = some p ∧ p.squareDistance place = entry.1 := by
  obtain ⟨square, i⟩ := entry
  simp [squaresTo, List.mem_zipIdx_iff_getElem?]

omit [LawfulScalar α] in
theorem pairwise_squaresTo (points : List (Coord α)) (place : Coord α) :
    (squaresTo points place).Pairwise fun a b => a.2 < b.2 := by
  rw [squaresTo, List.pairwise_map]
  exact pairwise_zipIdx points

omit [LawfulScalar α] in
theorem squaresTo_cons (first : Coord α) (rest : List (Coord α)) (place : Coord α) :
    squaresTo (first :: rest) place = (first.squareDistance place, 0) ::
      (rest.zipIdx 1).map fun entry => (entry.1.squareDistance place, entry.2) :=
  rfl

/-- The position of the first of the points at the least distance from a place. Undefined points are
at no distance. -/
def IsNearest (points : List (Coord α)) (place : Coord α) (i : Nat) : Prop :=
  ∃ p, points[i]? = some p ∧ ∀ (j : Nat) (q : Coord α), points[j]? = some q →
    q.isUndefined = false → p.squareDistance place ≤ q.squareDistance place ∧
      (j < i → p.squareDistance place < q.squareDistance place)

variable [LawfulSum α] [LawfulMeasure α] {points : List (Coord α)} {place : Coord α}

/-- What is not at a finite distance is infinitely far away. -/
theorem infinity_le_squareDistance {p : Coord α} (hp : p.isUndefined = false)
    (hplace : place.isFinite = true) (hfar : Scalar.isFinite (p.squareDistance place) ≠ true) :
    Scalar.infinity ≤ p.squareDistance place := by
  have hmeasure := isMeasure_squareDistance hp hplace
  refine Scalar.le_of_not_lt hmeasure.isNumber Scalar.isNumber_infinity fun hlt => hfar ?_
  exact Scalar.isFinite_of_le_of_lt_infinity LawfulScalar.isFinite_zero hmeasure.zero_le hlt

theorem exists_undefined_of_isNaN (hplace : place.isFinite = true) {entry : α × Nat}
    (hentry : entry ∈ squaresTo points place) (hnan : Scalar.isNaN entry.1 = true) :
    ∃ p ∈ points, p.isUndefined = true := by
  obtain ⟨p, hp, hsquare⟩ := mem_squaresTo.mp hentry
  refine ⟨p, List.mem_of_getElem? hp, ?_⟩
  by_contra hdefined
  have hmeasure := isMeasure_squareDistance (Bool.eq_false_of_not_eq_true hdefined) hplace
  rw [hsquare] at hmeasure
  exact Bool.false_ne_true (hmeasure.isNumber.symm.trans hnan)

/-- Among points at finite distances the first one with the least is nearest of all. -/
theorem isNearest_of_finite (hplace : place.isFinite = true) {near : α × Nat}
    {others : List (α × Nat)}
    (hfinite : (squaresTo points place).filter (fun (square, _) => Scalar.isFinite square) =
      near :: others) :
    IsNearest points place (leastBy Prod.fst near others).2 := by
  have hmem : ∀ entry, entry ∈ near :: others ↔
      (∃ p, points[entry.2]? = some p ∧ p.squareDistance place = entry.1) ∧
        Scalar.isFinite entry.1 = true := by
    intro entry
    rw [← hfinite, List.mem_filter, mem_squaresTo]
  have hordered : (near :: others).Pairwise fun a b => a.2 < b.2 := by
    rw [← hfinite]
    exact (pairwise_squaresTo points place).filter _
  obtain ⟨hleast, hbound⟩ := leastBy_fst_spec hordered fun entry hentry =>
    Scalar.isNumber_of_isFinite ((hmem entry).mp hentry).2
  obtain ⟨⟨p, hp, hsquare⟩, hpfinite⟩ := (hmem _).mp hleast
  rw [← hsquare] at hbound hpfinite
  refine ⟨p, hp, fun j q hq hdefined => ?_⟩
  by_cases hqfinite : Scalar.isFinite (q.squareDistance place) = true
  · exact hbound (q.squareDistance place, j) ((hmem _).mpr ⟨⟨q, hq, rfl⟩, hqfinite⟩)
  · have hlt := Scalar.lt_of_lt_of_le (Scalar.lt_infinity_of_isFinite hpfinite)
      (infinity_le_squareDistance hdefined hplace hqfinite)
    exact ⟨Scalar.le_of_lt hlt, fun _ => hlt⟩

/-- Where no point is at a finite distance the first one is as near as any other. -/
theorem isNearest_of_far (hplace : place.isFinite = true) {first : Coord α} {rest : List (Coord α)}
    (hfar : (squaresTo (first :: rest) place).filter (fun (square, _) => Scalar.isFinite square) =
      [])
    (hnumber : rest ≠ [] → Scalar.IsNumber (first.squareDistance place)) :
    IsNearest (first :: rest) place 0 := by
  refine ⟨first, rfl, fun j q hq hdefined => ⟨?_, fun hlt => absurd hlt (Nat.not_lt_zero j)⟩⟩
  by_cases hrest : rest = []
  · have hsame := List.mem_of_getElem? hq
    rw [hrest, List.mem_singleton] at hsame
    subst hsame
    exact Scalar.le_refl (isMeasure_squareDistance hdefined hplace).isNumber
  · have hqfar := List.filter_eq_nil_iff.mp hfar (q.squareDistance place, j)
      (mem_squaresTo.mpr ⟨q, hq, rfl⟩)
    exact Scalar.le_trans (LawfulScalar.le_infinity (hnumber hrest))
      (infinity_le_squareDistance hdefined hplace hqfar)

/-- The search finds the first of the nearest points, and nothing only where there is no point. It
breaks only when it meets an undefined point. -/
theorem nearest?_spec (points : List (Coord α)) (hplace : place.isFinite = true) :
    points = [] ∧ nearest? points place = .ok none ∨
    (∃ i, nearest? points place = .ok (some i) ∧ IsNearest points place i) ∨
    nearest? points place = .error .noOrder ∧ ∃ p ∈ points, p.isUndefined = true := by
  cases points with
  | nil => exact .inl ⟨rfl, rfl⟩
  | cons first rest =>
    refine .inr ?_
    unfold nearest?
    dsimp only
    split
    next near others _ hnear => exact .inl ⟨_, rfl, isNearest_of_finite hplace hnear⟩
    next hnil => cases hnil
    next square i hfilter hone =>
      rw [squaresTo_cons, List.cons.injEq, Prod.mk.injEq, List.map_eq_nil_iff,
        List.zipIdx_eq_nil_iff] at hone
      obtain ⟨⟨-, rfl⟩, hrest⟩ := hone
      exact .inl ⟨_, rfl, isNearest_of_far hplace hfilter (absurd hrest)⟩
    next square i _ _ hfilter hmany =>
      rw [squaresTo_cons, List.cons.injEq, Prod.mk.injEq] at hmany
      obtain ⟨⟨-, rfl⟩, -⟩ := hmany
      split
      case isTrue hnan =>
        obtain ⟨entry, hentry, hnan⟩ := List.any_eq_true.mp hnan
        exact .inr ⟨rfl, exists_undefined_of_isNaN hplace hentry hnan⟩
      case isFalse hnumber =>
        have hfirst : Scalar.IsNumber (first.squareDistance place) :=
          Bool.eq_false_of_not_eq_true fun hnan =>
            hnumber (List.any_eq_true.mpr ⟨_, List.mem_cons_self, hnan⟩)
        exact .inl ⟨_, rfl, isNearest_of_far hplace hfilter fun _ => hfirst⟩

/-- The last two points are at the same distance. -/
example : nearest? [⟨3, 4⟩, ⟨0, 1⟩, ⟨1, 0⟩] (⟨0, 0⟩ : Coord Float) = .ok (some 1) := rfl

end ZoneSkims.Coord
