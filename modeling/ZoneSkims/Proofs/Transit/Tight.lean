import ZoneSkims.Proofs.Transit.Range
import ZoneSkims.Transit.Connection

/-!
# Tight departures

The connections of a window are drawn from the departures that catch a trip, and those that another
one makes useless are left out. A connection that is left cannot start later without arriving later,
as far as the window goes: nothing is known of vehicles that are caught only after it.

* `lt_arrival_of_undominated`: a connection that is left arrives before all later ones.
* `TransitTree.exists_connection?`: the connection of a tree over one of the stops near the
  destination.
* `TransitRouter.undominated_tight`: the main result.
* `not_undominated_tight`: a connection that is left although it could start later.
-/

namespace ZoneSkims

variable {α : Type} [Scalar α]

/-! ## Connections that are left -/

namespace Connection

variable [LawfulScalar α] {a b c : Connection α}

instance : Std.TransCmp (fun a b : Connection α => Scalar.order b.departure a.departure) where
  eq_swap {a b} := (Std.OrientedCmp.eq_swap : Scalar.order b.departure a.departure = _)
  isLE_trans {a _ c} h h' :=
    (Std.TransCmp.isLE_trans h' h : (Scalar.order c.departure a.departure).isLE = true)

instance : Std.TransCmp (fun a b : Connection α => Scalar.order a.arrival b.arrival) where
  eq_swap {a b} := (Std.OrientedCmp.eq_swap : Scalar.order a.arrival b.arrival = _)
  isLE_trans {a _ c} h h' :=
    (Std.TransCmp.isLE_trans h h' : (Scalar.order a.arrival c.arrival).isLE = true)

/-- The order in which connections are gone through. -/
def sweepOrder (a b : Connection α) : Ordering :=
  compareLex (fun a b : Connection α => Scalar.order b.departure a.departure)
    (fun a b => Scalar.order a.arrival b.arrival) a b

instance : Std.TransCmp (sweepOrder : Connection α → Connection α → Ordering) :=
  inferInstanceAs (Std.TransCmp
    (compareLex (fun a b : Connection α => Scalar.order b.departure a.departure)
      fun a b => Scalar.order a.arrival b.arrival))

theorem sweepsBefore_total (a b : Connection α) :
    (a.sweepsBefore b || b.sweepsBefore a) = true := by
  have hswap : b.sweepOrder a = (a.sweepOrder b).swap := Std.OrientedCmp.eq_swap
  show ((a.sweepOrder b).isLE || (b.sweepOrder a).isLE) = true
  rw [hswap]
  cases a.sweepOrder b <;> rfl

theorem pairwise_sweepsBefore (connections : List (Connection α)) :
    (connections.mergeSort sweepsBefore).Pairwise fun a b => a.sweepsBefore b = true :=
  @List.pairwise_mergeSort _ sweepsBefore
    (fun a b c (hab : (a.sweepOrder b).isLE = true) (hbc : (b.sweepOrder c).isLE = true) =>
      (Std.TransCmp.isLE_trans hab hbc : (a.sweepOrder c).isLE = true))
    sweepsBefore_total connections

/-- What is gone through first does not depart earlier. -/
theorem not_lt_of_sweepsBefore (h : a.sweepsBefore b = true) : ¬ a.departure < b.departure := by
  refine LawfulScalar.not_lt_of_orderedLe ?_
  unfold sweepsBefore at h
  unfold Scalar.orderedLe
  cases hab : Scalar.order b.departure a.departure with
  | lt => rfl
  | eq => rfl
  | gt =>
    rw [hab] at h
    cases h

omit [LawfulScalar α] in
theorem arrivingBefore_sublist (connections : List (Connection α)) :
    ∀ earliest : α, (arrivingBefore earliest connections).Sublist connections := by
  induction connections with
  | nil => exact fun _ => List.Sublist.refl []
  | cons first rest ih =>
    intro earliest
    unfold arrivingBefore
    split
    · exact (ih first.arrival).cons_cons first
    · exact (ih earliest).cons first

/-- A connection that is left arrives before all that were gone through before it. -/
theorem mem_arrivingBefore {connections : List (Connection α)} :
    ∀ {earliest : α}, Scalar.IsNumber earliest →
      (∀ c ∈ connections, Scalar.IsNumber c.arrival) → c ∈ arrivingBefore earliest connections →
        c.arrival < earliest ∧ ∃ before after, connections = before ++ c :: after ∧
          ∀ b ∈ before, c.arrival < b.arrival := by
  induction connections with
  | nil => exact fun _ _ h => absurd h List.not_mem_nil
  | cons first rest ih =>
    intro earliest hnumber hnumbers hmem
    have hfirst := hnumbers first List.mem_cons_self
    have hrest := fun c hc => hnumbers c (List.mem_cons_of_mem first hc)
    -- The ones before it in the rest, and the first one.
    have hcons : ∀ {bound : α}, Scalar.IsNumber bound → c ∈ arrivingBefore bound rest →
        bound ≤ first.arrival → c.arrival < bound ∧ ∃ before after,
          first :: rest = before ++ c :: after ∧ ∀ b ∈ before, c.arrival < b.arrival := by
      intro bound hbound hmem hle
      obtain ⟨hlt, before, after, rfl, hbefore⟩ := ih hbound hrest hmem
      refine ⟨hlt, first :: before, after, rfl, fun b hb => ?_⟩
      rcases List.mem_cons.mp hb with rfl | hb
      · exact Scalar.lt_of_lt_of_le hlt hle
      · exact hbefore b hb
    unfold arrivingBefore at hmem
    split at hmem
    · next hkept =>
      rcases List.mem_cons.mp hmem with rfl | hmem
      · exact ⟨hkept, [], rest, rfl, fun _ hb => absurd hb List.not_mem_nil⟩
      · obtain ⟨hlt, hsplit⟩ := hcons hfirst hmem (Scalar.le_refl hfirst)
        exact ⟨Scalar.lt_trans hlt hkept, hsplit⟩
    · next hleft => exact hcons hnumber hmem (Scalar.le_of_not_lt hfirst hnumber hleft)

end Connection

theorem mem_of_mem_undominated {connections : List (Connection α)} {c : Connection α}
    (h : c ∈ undominated connections) : c ∈ connections :=
  List.mem_mergeSort.mp
    ((Connection.arrivingBefore_sublist _ _).subset (List.mem_reverse.mp h))

variable [LawfulScalar α]

/-- A connection that is left arrives before all that depart later. -/
theorem lt_arrival_of_undominated {connections : List (Connection α)} {c other : Connection α}
    (hnumbers : ∀ c ∈ connections, Scalar.IsNumber c.arrival) (hc : c ∈ undominated connections)
    (hother : other ∈ connections) (hlt : c.departure < other.departure) :
    c.arrival < other.arrival := by
  have hsorted := Connection.pairwise_sweepsBefore connections
  obtain ⟨-, before, after, hsplit, hbefore⟩ := Connection.mem_arrivingBefore
    Scalar.isNumber_infinity (fun c hc => hnumbers c (List.mem_mergeSort.mp hc))
    (List.mem_reverse.mp hc)
  rw [hsplit] at hsorted
  have hmem : other ∈ connections.mergeSort Connection.sweepsBefore :=
    List.mem_mergeSort.mpr hother
  rw [hsplit] at hmem
  rcases List.mem_append.mp hmem with hmem | hmem
  · exact hbefore other hmem
  · rcases List.mem_cons.mp hmem with rfl | hmem
    · exact absurd hlt (Scalar.lt_irrefl _)
    · -- What comes after it does not depart later.
      obtain ⟨hfirst, -⟩ := List.pairwise_cons.mp (List.pairwise_append.mp hsorted).2.1
      exact absurd hlt (Connection.not_lt_of_sweepsBefore (hfirst other hmem))

/-! ## Connections of a tree -/

namespace TransitTree

/-- The ending that is kept is one of the list, and none of it is earlier. -/
theorem foldl_earlier {endings : List (Ending α)} : ∀ {first : Ending α},
    (∀ ending ∈ first :: endings, Scalar.IsNumber ending.time) →
      ∃ best ∈ first :: endings, endings.foldl earlier (some first) = some best ∧
        ∀ ending ∈ first :: endings, best.time ≤ ending.time := by
  induction endings with
  | nil =>
    intro first hnumbers
    refine ⟨first, List.mem_cons_self, rfl, fun ending hending => ?_⟩
    obtain rfl := List.mem_singleton.mp hending
    exact Scalar.le_refl (hnumbers _ hending)
  | cons next rest ih =>
    intro first hnumbers
    have hfirst := hnumbers first List.mem_cons_self
    have hnext := hnumbers next (List.mem_cons_of_mem first List.mem_cons_self)
    have hrest := fun ending h =>
      hnumbers ending (List.mem_cons_of_mem first (List.mem_cons_of_mem next h))
    rw [List.foldl_cons, earlier]
    split
    · next hlt =>
      obtain ⟨best, hbest, heq, hle⟩ := ih (List.forall_mem_cons.mpr ⟨hnext, hrest⟩)
      have hearlier := hle next List.mem_cons_self
      exact ⟨best, List.mem_cons_of_mem first hbest, heq, List.forall_mem_cons.mpr
        ⟨Scalar.le_trans hearlier (Scalar.le_of_lt hlt), hle⟩⟩
    · next hnot =>
      obtain ⟨best, hbest, heq, hle⟩ := ih (List.forall_mem_cons.mpr ⟨hfirst, hrest⟩)
      obtain ⟨hearlier, hle⟩ := List.forall_mem_cons.mp hle
      refine ⟨best, ?_, heq, List.forall_mem_cons.mpr ⟨hearlier, List.forall_mem_cons.mpr
        ⟨Scalar.le_trans hearlier (Scalar.le_of_not_lt hnext hfirst hnot), hle⟩⟩⟩
      exact (List.mem_cons.mp hbest).elim (fun h => h ▸ List.mem_cons_self)
        fun h => List.mem_cons_of_mem first (List.mem_cons_of_mem next h)

omit [LawfulScalar α] in
theorem ending?_eq_some {tree : TransitTree α} {e : NearStop α} {ending : Ending α} :
    tree.ending? e = some ending ↔ ∃ label, tree.arrival? e.stop = some label ∧ 0 < label.legs ∧
      ending = ⟨label.time + e.walkTime, label, e.walkTime⟩ := by
  unfold ending?
  rw [Option.map_eq_some_iff]
  refine exists_congr fun label => ?_
  rw [Option.filter_eq_some_iff, decide_eq_true_iff, and_assoc, eq_comm (b := ending)]

omit [LawfulScalar α] in
/-- A tree with a connection reaches one of the stops near the destination by vehicle. -/
theorem exists_ending_of_connection? {tree : TransitTree α} {egress : List (NearStop α)}
    {c : Connection α} (h : tree.connection? egress = some c) :
    ∃ e ∈ egress, ∃ label, tree.arrival? e.stop = some label ∧ 0 < label.legs := by
  unfold connection? at h
  cases hendings : egress.filterMap tree.ending? with
  | nil =>
    rw [hendings] at h
    cases h
  | cons first rest =>
    have hmem : first ∈ egress.filterMap tree.ending? := hendings ▸ List.mem_cons_self
    obtain ⟨e, he, hsome⟩ := List.mem_filterMap.mp hmem
    obtain ⟨label, hlabel, hlegs, -⟩ := ending?_eq_some.mp hsome
    exact ⟨e, he, label, hlabel, hlegs⟩

variable {K : Type} [Field K] [LinearOrder K] [IsStrictOrderedRing K]
  {tree : TransitTree (Exact K)} {egress : List (NearStop (Exact K))} {e : NearStop (Exact K)}
  {label : Arrival (Exact K)}

omit [IsStrictOrderedRing K] in
theorem isFinite_time_of_ending {ending : Ending (Exact K)}
    (hwalks : ∀ e ∈ egress, Scalar.isFinite e.walkTime = true)
    (hending : ending ∈ egress.filterMap tree.ending?) : Scalar.isFinite ending.time = true := by
  obtain ⟨e, he, hsome⟩ := List.mem_filterMap.mp hending
  obtain ⟨label, hlabel, -, rfl⟩ := ending?_eq_some.mp hsome
  exact Exact.isFinite_add (Option.filter_eq_some_iff.mp hlabel).2 (hwalks e he)

/-- A connection leads over one of the stops near the destination that is reached by vehicle, and
is not later than the way over any other one. -/
theorem exists_connection? (hdeparture : Scalar.isFinite tree.departure = true)
    (hwalks : ∀ e ∈ egress, Scalar.isFinite e.walkTime = true) (he : e ∈ egress)
    (hlabel : tree.arrival? e.stop = some label) (hlegs : 0 < label.legs) :
    ∃ c, tree.connection? egress = some c ∧ c.departure = tree.departure ∧
      c.arrival ≤ label.time + e.walkTime ∧ ∃ e' ∈ egress, ∃ label',
        tree.arrival? e'.stop = some label' ∧ 0 < label'.legs ∧
          c.arrival = label'.time + e'.walkTime := by
  have hfinite : ∀ ending ∈ egress.filterMap tree.ending?, Scalar.isFinite ending.time = true :=
    fun _ => isFinite_time_of_ending hwalks
  have hmem : (⟨label.time + e.walkTime, label, e.walkTime⟩ : Ending (Exact K)) ∈
      egress.filterMap tree.ending? :=
    List.mem_filterMap.mpr ⟨e, he, ending?_eq_some.mpr ⟨label, hlabel, hlegs, rfl⟩⟩
  cases hendings : egress.filterMap tree.ending? with
  | nil =>
    rw [hendings] at hmem
    exact absurd hmem List.not_mem_nil
  | cons first rest =>
    rw [hendings] at hfinite hmem
    obtain ⟨best, hbest, heq, hle⟩ :=
      foldl_earlier fun ending h => Scalar.isNumber_of_isFinite (hfinite ending h)
    have hconnection : tree.connection? egress = some _ :=
      Option.map_eq_some_iff.mpr ⟨best, by rw [hendings]; exact heq, rfl⟩
    have harrival := Exact.add_sub_self hdeparture (hfinite best hbest)
    refine ⟨_, hconnection, rfl, ?_, ?_⟩
    · show tree.departure + (best.time - tree.departure) ≤ _
      rw [harrival]
      exact hle _ hmem
    · rw [← hendings] at hbest
      obtain ⟨e', he', hsome⟩ := List.mem_filterMap.mp hbest
      obtain ⟨label', hlabel', hlegs', rfl⟩ := ending?_eq_some.mp hsome
      exact ⟨e', he', label', hlabel', hlegs', harrival⟩

theorem connection?_eq_some {c : Connection (Exact K)}
    (hdeparture : Scalar.isFinite tree.departure = true)
    (hwalks : ∀ e ∈ egress, Scalar.isFinite e.walkTime = true)
    (h : tree.connection? egress = some c) :
    c.departure = tree.departure ∧ Scalar.isFinite c.arrival = true ∧ ∃ e ∈ egress, ∃ label,
      tree.arrival? e.stop = some label ∧ 0 < label.legs ∧ c.arrival = label.time + e.walkTime := by
  obtain ⟨e, he, label, hlabel, hlegs⟩ := exists_ending_of_connection? h
  obtain ⟨c', hc', hsame, -, e', he', label', hlabel', hlegs', harrival⟩ :=
    exists_connection? hdeparture hwalks he hlabel hlegs
  cases h.symm.trans hc'
  refine ⟨hsame, ?_, e', he', label', hlabel', hlegs', harrival⟩
  rw [harrival]
  exact Exact.isFinite_add (Option.filter_eq_some_iff.mp hlabel').2 (hwalks e' he')

end TransitTree

namespace TransitRouter

variable {K : Type} [Field K] [LinearOrder K] [IsStrictOrderedRing K]

/-- Without a limit on waits and without transfers, a connection that is left cannot start later
without arriving later, as long as a trip of the window can still be caught. -/
theorem undominated_tight {draft : TimetableDraft (Exact K)} {timetable : Timetable (Exact K)}
    {router : TransitRouter (Exact K)} (parameters : RouterParameters (Exact K))
    (isTrain : Route (Exact K) → Bool) (access egress : List (NearStop (Exact K)))
    (window : Window (Exact K)) (hdraft : draft.Drafted) (hbuild : draft.build = .ok timetable)
    (hstops : timetable.stopCount < 2 ^ 32 - 1) (hroutes : timetable.routeCount < 2 ^ 32 - 1)
    (hnew : TransitRouter.new timetable parameters isTrain = .ok router)
    (hpatient : parameters.maxTransferWait = Scalar.infinity)
    (hnone : ∀ stop transfers, timetable.transfersFrom stop = .ok transfers → transfers = [])
    (haccess : ∀ a ∈ access, timetable.contains a.stop = true)
    (hwalks : ∀ a ∈ access, Scalar.isFinite a.walkTime = true)
    (hegress : ∀ e ∈ egress, Scalar.isFinite e.walkTime = true)
    (hvalid : window.isValid = true) :
    ∃ trees, router.trees access window = .ok trees ∧
      ∀ c ∈ undominated (trees.filterMap fun tree => tree.connection? egress),
        ∀ departure, Scalar.isFinite departure = true → c.departure < departure →
          ∃ tree, router.tree access departure = .ok tree ∧
            ∀ later, tree.connection? egress = some later → c.arrival < later.arrival ∨
              ∀ time, Catches timetable access time → departure ≤ time →
                window.finish < time := by
  have htimetable := hdraft.sound_build hbuild (by omega) (by omega)
  obtain ⟨hrouter, -, rfl, rfl⟩ := sound_of_new htimetable hnew
  have hrides : router.RidesOnly isTrain access :=
    ⟨hrouter, hstops, hpatient, haccess, hwalks, hnone⟩
  obtain ⟨trees, htrees, hsound, -⟩ :=
    trees_spec (fun _ _ => Exact.eq_of_beq) hrouter haccess window
  have hdrawn : ∀ tree ∈ trees, Scalar.isFinite tree.departure = true := fun tree hmem =>
    Window.isFinite_of_contains hvalid (hsound tree hmem).1
  refine ⟨trees, htrees, fun c hc departure hdeparture hlt => ?_⟩
  obtain ⟨tree, htree, -⟩ := hrides.exists_earliest hdeparture
  refine ⟨tree, htree, fun later hlater => or_iff_not_imp_left.mpr fun hnot => ?_⟩
  intro time hcatch hle
  obtain ⟨own, hown, hsome⟩ := List.mem_filterMap.mp (mem_of_mem_undominated hc)
  obtain ⟨hfirst, hlast⟩ := Window.contains_iff.mp (hsound own hown).1
  rw [← (TransitTree.connection?_eq_some (hdrawn own hown) hegress hsome).1] at hfirst
  refine Scalar.lt_of_not_le (Scalar.isNumber_right hle) (Scalar.isNumber_right hlast)
    fun hwithin => hnot ?_
  -- A departure of the window does as well as the later one, and the connection that it gives
  -- arrives after the one that was left.
  obtain ⟨-, -, e, he, label, hlabel, hlegs, harrival⟩ :=
    TransitTree.connection?_eq_some (departure_of_tree htree ▸ hdeparture) hegress hlater
  obtain ⟨laterTree, hmem, hlaterTree, label', hlabel', hlegs', hle'⟩ :=
    hrides.exists_tree_of_catches hvalid htrees (Scalar.le_trans hfirst (Scalar.le_of_lt hlt))
      htree hlabel hlegs hcatch hle hwithin
  obtain ⟨other, hother, hsame, hearlier, -⟩ :=
    TransitTree.exists_connection? (hdrawn laterTree hmem) hegress he hlabel' hlegs'
  have hnumbers : ∀ c ∈ trees.filterMap fun tree => tree.connection? egress,
      Scalar.IsNumber c.arrival := by
    intro c hc
    obtain ⟨tree, hmem, hsome⟩ := List.mem_filterMap.mp hc
    exact Scalar.isNumber_of_isFinite
      (TransitTree.connection?_eq_some (hdrawn tree hmem) hegress hsome).2.1
  have htight : c.arrival < other.arrival := lt_arrival_of_undominated hnumbers hc
    (List.mem_filterMap.mpr ⟨laterTree, hmem, hother⟩)
    (Scalar.lt_of_lt_of_le hlt (hsame ▸ hlaterTree))
  refine Scalar.lt_of_lt_of_le htight (Scalar.le_trans hearlier ?_)
  rw [harrival]
  exact LawfulScalar.add_le_add_right (hegress e he) hle'

end TransitRouter

/-! ## A line after the window -/

open Exact

/-- The third stop is near the destination. -/
def nearSecondLine : List (NearStop (Exact ℚ)) := [⟨⟨2⟩, finite 30⟩]

/-- Who catches the first line waits for the second one all the same, and nothing in the window
arrives as early. -/
theorem exists_undominated_twoLines : ∃ trees,
    twoLinesRouter.trees nearTwoLines beforeSecondLine = .ok trees ∧
      ∃ c ∈ undominated (trees.filterMap fun tree => tree.connection? nearSecondLine),
        c.departure = finite 440 ∧ c.arrival = finite 2630 := by
  have hfound : ((twoLinesRouter.trees nearTwoLines beforeSecondLine).toOption.any fun trees =>
      decide (((undominated (trees.filterMap fun tree => tree.connection? nearSecondLine)).any
        fun c => decide (c.departure = finite 440 ∧ c.arrival = finite 2630)) = true)) = true := by
    decide +kernel
  obtain ⟨trees, htrees, hany⟩ := exists_of_any hfound
  obtain ⟨c, hc, htimes⟩ := List.any_eq_true.mp hany
  exact ⟨trees, htrees, c, hc, of_decide_eq_true htimes⟩

/-- Leaving at 500, no trip of the window can be caught any more, so that the second line may be
reached as early as by the connection that leaves at 440. -/
theorem undominated_tight_twoLines : ∃ (draft : TimetableDraft (Exact ℚ))
    (trees : List (TransitTree (Exact ℚ))) (c : Connection (Exact ℚ))
    (tree : TransitTree (Exact ℚ)), draft.Drafted ∧ draft.build = .ok twoLinesTimetable ∧
      twoLinesTimetable.stopCount < 2 ^ 32 - 1 ∧ twoLinesTimetable.routeCount < 2 ^ 32 - 1 ∧
      TransitRouter.new twoLinesTimetable unhurried (fun _ => false) = .ok twoLinesRouter ∧
      unhurried.maxTransferWait = Scalar.infinity ∧
      (∀ stop transfers, twoLinesTimetable.transfersFrom stop = .ok transfers → transfers = []) ∧
      (∀ a ∈ nearTwoLines, twoLinesTimetable.contains a.stop = true) ∧
      (∀ a ∈ nearTwoLines, Scalar.isFinite a.walkTime = true) ∧
      (∀ e ∈ nearSecondLine, Scalar.isFinite e.walkTime = true) ∧
      beforeSecondLine.isValid = true ∧
      twoLinesRouter.trees nearTwoLines beforeSecondLine = .ok trees ∧
      c ∈ undominated (trees.filterMap fun tree => tree.connection? nearSecondLine) ∧
      Scalar.isFinite (finite 500 : Exact ℚ) = true ∧ c.departure < finite 500 ∧
      twoLinesRouter.tree nearTwoLines (finite 500) = .ok tree ∧
      ∀ later, tree.connection? nearSecondLine = some later → c.arrival < later.arrival ∨
        ∀ time, Catches twoLinesTimetable nearTwoLines time → finite 500 ≤ time →
          beforeSecondLine.finish < time := by
  obtain ⟨draft, hdraft, hbuild⟩ := drafted_twoLines
  have hvalid : beforeSecondLine.isValid = true := by decide +kernel
  obtain ⟨trees, htrees, htight⟩ := TransitRouter.undominated_tight unhurried (fun _ => false)
    nearTwoLines nearSecondLine beforeSecondLine hdraft hbuild (by decide) (by decide) new_twoLines
    rfl transfersFrom_twoLines (by decide) (by decide) (by decide) hvalid
  obtain ⟨trees', htrees', c, hc, hdeparture, -⟩ := exists_undominated_twoLines
  cases htrees.symm.trans htrees'
  have hlt : c.departure < finite 500 := by
    rw [hdeparture]
    decide +kernel
  obtain ⟨tree, htree, hlater⟩ := htight c hc (finite 500) rfl hlt
  exact ⟨draft, trees, c, tree, hdraft, hbuild, by decide, by decide, new_twoLines, rfl,
    transfersFrom_twoLines, by decide, by decide, by decide, hvalid, htrees, hc, rfl, hlt, htree,
    hlater⟩

/-- The connection that leaves at 440 is left, and it could leave at 600 without arriving later. -/
theorem not_undominated_tight : ∃ (draft : TimetableDraft (Exact ℚ))
    (trees : List (TransitTree (Exact ℚ))) (c later : Connection (Exact ℚ))
    (tree : TransitTree (Exact ℚ)), draft.Drafted ∧ draft.build = .ok twoLinesTimetable ∧
      twoLinesTimetable.stopCount < 2 ^ 32 - 1 ∧ twoLinesTimetable.routeCount < 2 ^ 32 - 1 ∧
      TransitRouter.new twoLinesTimetable unhurried (fun _ => false) = .ok twoLinesRouter ∧
      unhurried.maxTransferWait = Scalar.infinity ∧
      (∀ stop transfers, twoLinesTimetable.transfersFrom stop = .ok transfers → transfers = []) ∧
      (∀ a ∈ nearTwoLines, twoLinesTimetable.contains a.stop = true ∧
        Scalar.isFinite a.walkTime = true) ∧
      (∀ e ∈ nearSecondLine, Scalar.isFinite e.walkTime = true) ∧
      beforeSecondLine.isValid = true ∧
      twoLinesRouter.trees nearTwoLines beforeSecondLine = .ok trees ∧
      c ∈ undominated (trees.filterMap fun tree => tree.connection? nearSecondLine) ∧
      c.departure < finite 600 ∧ twoLinesRouter.tree nearTwoLines (finite 600) = .ok tree ∧
      tree.connection? nearSecondLine = some later ∧ ¬ c.arrival < later.arrival := by
  obtain ⟨draft, hdraft, hbuild⟩ := drafted_twoLines
  obtain ⟨trees, htrees, c, hc, hdeparture, harrival⟩ := exists_undominated_twoLines
  have hlater : ((twoLinesRouter.tree nearTwoLines (finite 600)).toOption.any fun tree =>
      decide (((tree.connection? nearSecondLine).any fun later =>
        decide (later.arrival = finite 2630)) = true)) = true := by
    decide +kernel
  obtain ⟨tree, htree, hany⟩ := exists_of_any hlater
  obtain ⟨later, hsome, harrival'⟩ := (Option.any_eq_true _ _).mp hany
  refine ⟨draft, trees, c, later, tree, hdraft, hbuild, by decide, by decide, new_twoLines, rfl,
    transfersFrom_twoLines, by decide, by decide, by decide +kernel, htrees, hc, ?_, htree, hsome,
    ?_⟩
  · rw [hdeparture]
    decide +kernel
  · rw [harrival, of_decide_eq_true harrival']
    exact Scalar.lt_irrefl _

end ZoneSkims
