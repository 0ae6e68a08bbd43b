import ZoneSkims.Proofs.Scalar.Plain
import ZoneSkims.Proofs.Transit.Tight

/-!
# The Pareto front of connections

A connection dominates another one when it leaves no earlier and arrives no later. The connections
that are left of a list are its front: none of them is dominated by one with other times, and each
of the list is dominated by one of them. The times of a front are determined by the connections of
the list, and the front itself by their order too, of which only the first of equals matters.

* `Connection.IsFront`: the front of a list.
* `Connection.IsFront.map_times_eq`, `Connection.IsFront.eq`: there is only one.
* `isFront_undominated`: what is left of a list is its front.
* `undominated_front`: the main result.
-/

namespace ZoneSkims

variable {α : Type} [Scalar α]

namespace Connection

/-- The departure and the arrival. -/
def times (c : Connection α) : α × α := (c.departure, c.arrival)

/-- Both times are finite, and neither is -0. -/
structure Plain (c : Connection α) : Prop where
  departure : Scalar.IsPlain c.departure
  arrival : Scalar.IsPlain c.arrival

instance [DecidableEq α] (c : Connection α) : Decidable c.Plain :=
  decidable_of_iff (Scalar.IsPlain c.departure ∧ Scalar.IsPlain c.arrival)
    ⟨fun h => ⟨h.1, h.2⟩, fun h => ⟨h.1, h.2⟩⟩

/-- `o` leaves no earlier than `c` and arrives no later. -/
def Dominates (o c : Connection α) : Prop :=
  c.departure ≤ o.departure ∧ o.arrival ≤ c.arrival

/-- The connections of a list that no other one makes useless, by departure, and of those with the
same times the first. -/
structure IsFront (connections front : List (Connection α)) : Prop where
  subset : ∀ c ∈ front, c ∈ connections
  ascending : front.Pairwise fun a b => a.departure < b.departure ∧ a.arrival < b.arrival
  covers : ∀ c ∈ connections, ∃ kept ∈ front, kept.Dominates c
  first : ∀ c ∈ front, ∃ before after, connections = before ++ c :: after ∧
    ∀ b ∈ before, b.times ≠ c.times

variable [LawfulScalar α] {a b c o : Connection α}
  {connections front others front' : List (Connection α)}

/-! ## Domination -/

namespace Dominates

theorem refl (h : c.Plain) : c.Dominates c := ⟨h.departure.le_refl, h.arrival.le_refl⟩

theorem trans (h : a.Dominates b) (h' : b.Dominates c) : a.Dominates c :=
  ⟨Scalar.le_trans h'.1 h.1, Scalar.le_trans h.2 h'.2⟩

omit [LawfulScalar α] in
theorem times_eq [LawfulZero α] (ha : a.Plain) (hb : b.Plain) (h : a.Dominates b)
    (h' : b.Dominates a) : a.times = b.times :=
  Prod.ext (ha.departure.eq_of_le hb.departure h'.1 h.1)
    (ha.arrival.eq_of_le hb.arrival h.2 h'.2)

omit [LawfulScalar α] in
theorem congr (h : a.Dominates b) (htimes : b.times = c.times) : a.Dominates c := by
  obtain ⟨hdeparture, harrival⟩ := Prod.mk.inj htimes
  exact ⟨hdeparture ▸ h.1, harrival ▸ h.2⟩

end Dominates

/-! ## Fronts -/

namespace IsFront

/-- No connection of a front dominates another one. -/
theorem eq_of_dominates (h : IsFront connections front) (ha : a ∈ front) (hb : b ∈ front)
    (hdominates : a.Dominates b) : a = b := by
  have hapart : front.Pairwise fun a b => ¬ a.Dominates b ∧ ¬ b.Dominates a :=
    h.ascending.imp fun {a b} hlt => ⟨fun hab => Scalar.not_lt_of_le hab.1 hlt.1,
      fun hba => Scalar.not_lt_of_le hba.2 hlt.2⟩
  have hsymm : Std.Symm fun a b : Connection α => ¬ a.Dominates b ∧ ¬ b.Dominates a :=
    ⟨fun _ _ => And.symm⟩
  by_contra hne
  exact (hapart.forall ha hb hne).1 hdominates

variable [LawfulZero α]

/-- What dominates a connection of a front has its times. -/
theorem times_eq_of_dominates (h : IsFront connections front) (hplain : ∀ c ∈ connections, c.Plain)
    (hc : c ∈ front) (ho : o ∈ connections) (hdominates : o.Dominates c) : o.times = c.times := by
  obtain ⟨kept, hkept, hcovers⟩ := h.covers o ho
  obtain rfl := h.eq_of_dominates hkept hc (hcovers.trans hdominates)
  exact Dominates.times_eq (hplain o ho) (hplain kept (h.subset kept hc)) hdominates hcovers

/-- Lists of the same connections have fronts with the same times. -/
theorem exists_times_eq (h : IsFront connections front) (h' : IsFront others front')
    (hsame : ∀ c, c ∈ connections ↔ c ∈ others) (hplain : ∀ c ∈ connections, c.Plain)
    (hc : c ∈ front) : ∃ c' ∈ front', c'.times = c.times := by
  obtain ⟨kept, hkept, hcovers⟩ := h'.covers c ((hsame c).mp (h.subset c hc))
  exact ⟨kept, hkept, h.times_eq_of_dominates hplain hc ((hsame kept).mpr (h'.subset kept hkept))
    hcovers⟩

omit [LawfulZero α] in
/-- Lists that ascend are equal if they have the same members. -/
theorem eq_of_ascending {β : Type} (key : β → α) {xs ys : List β}
    (hxs : xs.Pairwise fun x y => key x < key y) (hys : ys.Pairwise fun x y => key x < key y)
    (hmem : ∀ x, x ∈ xs ↔ x ∈ ys) : xs = ys := by
  have hasymm : Std.Asymm fun x y => key x < key y :=
    ⟨fun _ _ h => Scalar.not_lt_of_le (Scalar.le_of_lt h)⟩
  exact hxs.eq_of_mem_iff hys hmem

/-- The times of a front do not depend on the order of the list. -/
theorem map_times_eq (h : IsFront connections front) (h' : IsFront others front')
    (hsame : ∀ c, c ∈ connections ↔ c ∈ others) (hplain : ∀ c ∈ connections, c.Plain) :
    front.map times = front'.map times := by
  have hplain' : ∀ c ∈ others, c.Plain := fun c hc => hplain c ((hsame c).mpr hc)
  refine eq_of_ascending Prod.fst (List.pairwise_map.mpr (h.ascending.imp And.left))
    (List.pairwise_map.mpr (h'.ascending.imp And.left))
    fun pair => ⟨fun hpair => ?_, fun hpair => ?_⟩
  · obtain ⟨c, hc, rfl⟩ := List.mem_map.mp hpair
    obtain ⟨c', hc', heq⟩ := h.exists_times_eq h' hsame hplain hc
    exact List.mem_map.mpr ⟨c', hc', heq⟩
  · obtain ⟨c, hc, rfl⟩ := List.mem_map.mp hpair
    obtain ⟨c', hc', heq⟩ := h'.exists_times_eq h (fun c => (hsame c).symm) hplain' hc
    exact List.mem_map.mpr ⟨c', hc', heq⟩

omit [LawfulScalar α] [LawfulZero α] in
/-- Only one connection is the first with its times. -/
theorem eq_of_first {before after before' after' : List (Connection α)}
    (hbefore : ∀ b ∈ before, b.times ≠ c.times) (hbefore' : ∀ b ∈ before', b.times ≠ o.times)
    (htimes : c.times = o.times) (hsplit : before ++ c :: after = before' ++ o :: after') :
    c = o := by
  rcases List.append_eq_append_iff.mp hsplit with ⟨more, rfl, hmore⟩ | ⟨more, rfl, hmore⟩
  · cases more with
    | nil => exact (List.cons.inj hmore).1
    | cons next more =>
      obtain ⟨rfl, -⟩ := List.cons.inj hmore
      exact absurd htimes (hbefore' c (by simp))
  · cases more with
    | nil => exact (List.cons.inj hmore).1.symm
    | cons next more =>
      obtain ⟨rfl, -⟩ := List.cons.inj hmore
      exact absurd htimes.symm (hbefore o (by simp))

/-- A list has only one front. -/
theorem eq (h : IsFront connections front) (h' : IsFront connections front')
    (hplain : ∀ c ∈ connections, c.Plain) : front = front' := by
  have hmem : ∀ {front front' : List (Connection α)}, IsFront connections front →
      IsFront connections front' → ∀ c ∈ front, c ∈ front' := by
    intro front front' h h' c hc
    obtain ⟨c', hc', htimes⟩ := h.exists_times_eq h' (fun _ => Iff.rfl) hplain hc
    obtain ⟨before, after, hsplit, hbefore⟩ := h.first c hc
    obtain ⟨before', after', hsplit', hbefore'⟩ := h'.first c' hc'
    rwa [eq_of_first hbefore hbefore' htimes.symm (hsplit.symm.trans hsplit')]
  exact eq_of_ascending departure (h.ascending.imp And.left) (h'.ascending.imp And.left)
    fun c => ⟨hmem h h' c, hmem h' h c⟩

omit [LawfulZero α] in
/-- A front is its own front. -/
theorem self (h : IsFront connections front) (hplain : ∀ c ∈ connections, c.Plain) :
    IsFront front front := by
  refine ⟨fun _ => id, h.ascending,
    fun c hc => ⟨c, hc, Dominates.refl (hplain c (h.subset c hc))⟩, fun c hc => ?_⟩
  obtain ⟨before, after, rfl⟩ := List.append_of_mem hc
  refine ⟨before, after, rfl, fun b hb heq => ?_⟩
  have hlt := (List.pairwise_append.mp h.ascending).2.2 b hb c List.mem_cons_self
  rw [(Prod.mk.inj heq).1] at hlt
  exact Scalar.lt_irrefl _ hlt.1

/-- A dominated connection does not change the front. -/
theorem insert {before after : List (Connection α)} (h : IsFront (before ++ after) front)
    (hplain : ∀ c ∈ before ++ after, c.Plain) (hc : c.Plain) (ho : o ∈ before ++ after)
    (hdominates : o.Dominates c) (hne : o.times ≠ c.times) :
    IsFront (before ++ c :: after) front := by
  refine ⟨fun d hd => ?_, h.ascending, fun d hd => ?_, fun d hd => ?_⟩
  · exact List.mem_append.mpr ((List.mem_append.mp (h.subset d hd)).imp_right
      (List.mem_cons_of_mem c))
  · rcases List.mem_append.mp hd with hd | hd
    · exact h.covers d (List.mem_append_left after hd)
    · rcases List.mem_cons.mp hd with rfl | hd
      · obtain ⟨kept, hkept, hcovers⟩ := h.covers o ho
        exact ⟨kept, hkept, hcovers.trans hdominates⟩
      · exact h.covers d (List.mem_append_right before hd)
  · -- A connection of the front with the times of the dominated one would be dominated too.
    have hdne : c.times ≠ d.times := fun heq => hne
      ((h.times_eq_of_dominates hplain hd ho (hdominates.congr heq)).trans heq.symm)
    obtain ⟨before', after', hsplit, hbefore⟩ := h.first d hd
    rcases List.append_eq_append_iff.mp hsplit with ⟨more, rfl, rfl⟩ | ⟨more, rfl, hmore⟩
    · refine ⟨before ++ c :: more, after', by simp, fun b hb => ?_⟩
      rcases List.mem_append.mp hb with hb | hb
      · exact hbefore b (List.mem_append_left more hb)
      · rcases List.mem_cons.mp hb with rfl | hb
        · exact hdne
        · exact hbefore b (List.mem_append_right before hb)
    · cases more with
      | nil =>
        rw [List.nil_append] at hmore
        subst hmore
        refine ⟨before' ++ [c], after', by simp, fun b hb => ?_⟩
        rcases List.mem_append.mp hb with hb | hb
        · exact hbefore b hb
        · rwa [List.mem_singleton.mp hb]
      | cons next more =>
        obtain ⟨rfl, hmore⟩ := List.cons.inj hmore
        exact ⟨before', more ++ c :: after, by simp, hbefore⟩

end IsFront

/-! ## What is left of a list -/

theorem order_self (a : α) : Scalar.order a a = .eq := Std.ReflCmp.compare_self

theorem sweepsBefore_trans (h : a.sweepsBefore b = true) (h' : b.sweepsBefore c = true) :
    a.sweepsBefore c = true := by
  change (sweepOrder a b).isLE = true at h
  change (sweepOrder b c).isLE = true at h'
  change (sweepOrder a c).isLE = true
  exact Std.TransCmp.isLE_trans h h'

theorem sweepsBefore_of_times_eq (h : a.times = b.times) : a.sweepsBefore b = true := by
  obtain ⟨hdeparture, harrival⟩ := Prod.mk.inj h
  rw [sweepsBefore, hdeparture, harrival, order_self, order_self]
  rfl

/-- Of two that depart at the same time, the one that arrives earlier is gone through first. -/
theorem le_arrival_of_sweepsBefore (ha : a.Plain) (hb : b.Plain) (h : a.sweepsBefore b = true)
    (hdeparture : a.departure = b.departure) : a.arrival ≤ b.arrival := by
  rw [sweepsBefore, hdeparture, order_self] at h
  exact hb.arrival.le_of_not_lt ha.arrival (LawfulScalar.not_lt_of_orderedLe h)

theorem le_departure_of_sweepsBefore (ha : a.Plain) (hb : b.Plain) (h : a.sweepsBefore b = true) :
    b.departure ≤ a.departure :=
  ha.departure.le_of_not_lt hb.departure (not_lt_of_sweepsBefore h)

/-- Each connection that is kept arrives before those that were kept earlier. -/
theorem pairwise_arrivingBefore (hplain : ∀ c ∈ connections, c.Plain) :
    ∀ {earliest : α}, Scalar.IsNumber earliest →
      (arrivingBefore earliest connections).Pairwise fun a b => b.arrival < a.arrival := by
  induction connections with
  | nil => exact fun _ => List.Pairwise.nil
  | cons first rest ih =>
    intro earliest hearliest
    obtain ⟨hfirst, hrest⟩ := List.forall_mem_cons.mp hplain
    unfold arrivingBefore
    split
    · refine List.pairwise_cons.mpr ⟨fun c hc => ?_, ih hrest hfirst.arrival.isNumber⟩
      exact (mem_arrivingBefore hfirst.arrival.isNumber
        (fun c hc => (hrest c hc).arrival.isNumber) hc).1
    · exact ih hrest hearliest

/-- What is gone through arrives no earlier than a connection that was kept, unless it is kept
itself. -/
theorem exists_dominates (hplain : ∀ c ∈ connections, c.Plain)
    (hsorted : connections.Pairwise fun a b => a.sweepsBefore b = true) :
    ∀ {earliest : α}, c ∈ connections → c.arrival < earliest →
      ∃ kept ∈ arrivingBefore earliest connections, kept.Dominates c := by
  induction connections with
  | nil => exact fun hc => absurd hc List.not_mem_nil
  | cons first rest ih =>
    intro earliest hc hlt
    obtain ⟨hfirst, hrest⟩ := List.forall_mem_cons.mp hplain
    obtain ⟨hbefore, hsorted⟩ := List.pairwise_cons.mp hsorted
    unfold arrivingBefore
    split
    · next hkept =>
      rcases List.mem_cons.mp hc with rfl | hc
      · exact ⟨c, List.mem_cons_self, Dominates.refl hfirst⟩
      by_cases hearlier : c.arrival < first.arrival
      · obtain ⟨kept, hmem, hdominates⟩ := ih hrest hsorted hc hearlier
        exact ⟨kept, List.mem_cons_of_mem first hmem, hdominates⟩
      · exact ⟨first, List.mem_cons_self,
          le_departure_of_sweepsBefore hfirst (hrest c hc) (hbefore c hc),
          (hrest c hc).arrival.le_of_not_lt hfirst.arrival hearlier⟩
    · next hleft =>
      rcases List.mem_cons.mp hc with rfl | hc
      · exact absurd hlt hleft
      · exact ih hrest hsorted hc hlt

variable [LawfulZero α]

/-- Connections of which neither is gone through before the other one have the same times. -/
theorem times_eq_of_sweepsBefore (ha : a.Plain) (hb : b.Plain) (h : a.sweepsBefore b = true)
    (h' : b.sweepsBefore a = true) : a.times = b.times := by
  have hdeparture : a.departure = b.departure := ha.departure.eq_of_le hb.departure
    (le_departure_of_sweepsBefore hb ha h') (le_departure_of_sweepsBefore ha hb h)
  exact Prod.ext hdeparture (ha.arrival.eq_of_le hb.arrival
    (le_arrival_of_sweepsBefore ha hb h hdeparture)
    (le_arrival_of_sweepsBefore hb ha h' hdeparture.symm))

/-- Neither is gone through before the other one. -/
def sweepsWith (c o : Connection α) : Bool := o.sweepsBefore c && c.sweepsBefore o

theorem sweepsWith_iff (ho : o.Plain) (hc : c.Plain) :
    c.sweepsWith o = true ↔ o.times = c.times := by
  unfold sweepsWith
  rw [Bool.and_eq_true]
  exact ⟨fun h => times_eq_of_sweepsBefore ho hc h.1 h.2,
    fun h => ⟨sweepsBefore_of_times_eq h, sweepsBefore_of_times_eq h.symm⟩⟩

/-- The first connection with its times stays the first one when the list is sorted. -/
theorem first_of_mergeSort {before after : List (Connection α)}
    (hplain : ∀ c ∈ connections, c.Plain) (hc : c ∈ connections)
    (hsplit : connections.mergeSort sweepsBefore = before ++ c :: after)
    (hbefore : ∀ b ∈ before, b.times ≠ c.times) : ∃ before' after',
      connections = before' ++ c :: after' ∧ ∀ b ∈ before', b.times ≠ c.times := by
  have htimes : ∀ o ∈ connections, c.sweepsWith o = true ↔ o.times = c.times :=
    fun o ho => sweepsWith_iff (hplain o ho) (hplain c hc)
  have hpairwise : (connections.filter c.sweepsWith).Pairwise fun a b =>
      a.sweepsBefore b = true := by
    refine List.pairwise_of_forall_mem_list fun a ha b hb => sweepsBefore_of_times_eq ?_
    obtain ⟨ha, ha'⟩ := List.mem_filter.mp ha
    obtain ⟨hb, hb'⟩ := List.mem_filter.mp hb
    exact ((htimes a ha).mp ha').trans ((htimes b hb).mp hb').symm
  -- The sort is stable: what compares as equal is in the sorted list as it was before.
  have hstable : connections.filter c.sweepsWith =
      (connections.mergeSort sweepsBefore).filter c.sweepsWith := by
    refine List.Sublist.eq_of_length ?_
      ((List.mergeSort_perm connections sweepsBefore).filter c.sweepsWith).length_eq.symm
    have htrans : ∀ a b c : Connection α, a.sweepsBefore b = true → b.sweepsBefore c = true →
        a.sweepsBefore c = true := fun _ _ _ => sweepsBefore_trans
    have hsublist := List.sublist_mergeSort htrans sweepsBefore_total hpairwise
      List.filter_sublist
    simpa only [List.filter_filter, Bool.and_self] using hsublist.filter c.sweepsWith
  have hleft : before.filter c.sweepsWith = [] := List.filter_eq_nil_iff.mpr fun b hb h =>
    hbefore b hb ((htimes b (List.mem_mergeSort.mp (hsplit ▸ List.mem_append_left _ hb))).mp h)
  rw [hsplit, List.filter_append, hleft, List.nil_append,
    List.filter_cons_of_pos ((htimes c hc).mpr rfl)] at hstable
  obtain ⟨before', after', rfl, hbefore', -, -⟩ := List.filter_eq_cons_iff.mp hstable
  exact ⟨before', after', rfl, fun b hb heq =>
    hbefore' b hb ((htimes b (List.mem_append_left _ hb)).mpr heq)⟩

/-- What is left of a list is its front. -/
theorem isFront_undominated (hplain : ∀ c ∈ connections, c.Plain) :
    IsFront connections (undominated connections) := by
  have hsorted := pairwise_sweepsBefore connections
  have hsame : ∀ c, c ∈ connections.mergeSort sweepsBefore ↔ c ∈ connections :=
    fun _ => List.mem_mergeSort
  have hplain' : ∀ c ∈ connections.mergeSort sweepsBefore, c.Plain :=
    fun c hc => hplain c ((hsame c).mp hc)
  have hsublist := arrivingBefore_sublist (connections.mergeSort sweepsBefore) Scalar.infinity
  refine ⟨fun c => mem_of_mem_undominated, ?ascending, fun c hc => ?covers, fun c hc => ?first⟩
  case ascending =>
    refine List.pairwise_reverse.mpr (((pairwise_arrivingBefore hplain'
      Scalar.isNumber_infinity).and (hsorted.sublist hsublist)).imp_of_mem
        fun {a b} ha hb ⟨hlt, hbefore⟩ => ⟨?_, hlt⟩)
    have ha := hplain' a (hsublist.subset ha)
    have hb := hplain' b (hsublist.subset hb)
    refine LawfulScalar.lt_iff.mpr ⟨le_departure_of_sweepsBefore ha hb hbefore, fun hle => ?_⟩
    have hdeparture := ha.departure.eq_of_le hb.departure hle
      (le_departure_of_sweepsBefore ha hb hbefore)
    exact Scalar.not_lt_of_le (le_arrival_of_sweepsBefore ha hb hbefore hdeparture) hlt
  case covers =>
    obtain ⟨kept, hkept, hdominates⟩ := exists_dominates hplain' hsorted ((hsame c).mpr hc)
      (Scalar.lt_infinity_of_isFinite (hplain c hc).arrival.isFinite)
    exact ⟨kept, List.mem_reverse.mpr hkept, hdominates⟩
  case first =>
    obtain ⟨-, before, after, hsplit, hbefore⟩ := mem_arrivingBefore Scalar.isNumber_infinity
      (fun c hc => (hplain' c hc).arrival.isNumber) (List.mem_reverse.mp hc)
    refine first_of_mergeSort hplain (mem_of_mem_undominated hc) hsplit fun b hb heq => ?_
    have hlt := hbefore b hb
    rw [(Prod.mk.inj heq).2] at hlt
    exact Scalar.lt_irrefl _ hlt

end Connection

open Connection

variable [LawfulScalar α] [LawfulZero α]

/-- What is left of a list is its front, so that none of it is dominated by a connection with other
times. Going through it again changes nothing, its times do not depend on the order of the list,
and a connection that is dominated by one with other times changes nothing wherever it is added. -/
theorem undominated_front (connections : List (Connection α))
    (hplain : ∀ c ∈ connections, c.Plain) :
    IsFront connections (undominated connections) ∧
      (∀ c ∈ undominated connections, ∀ o ∈ connections, o.Dominates c → o.times = c.times) ∧
      undominated (undominated connections) = undominated connections ∧
      (∀ others, connections.Perm others →
        (undominated others).map times = (undominated connections).map times) ∧
      ∀ before after c o, connections = before ++ after → c.Plain → o ∈ connections →
        o.Dominates c → o.times ≠ c.times →
          undominated (before ++ c :: after) = undominated connections := by
  have hfront := isFront_undominated hplain
  have hleft : ∀ c ∈ undominated connections, c.Plain := fun c hc => hplain c (hfront.subset c hc)
  refine ⟨hfront, fun c hc o ho => hfront.times_eq_of_dominates hplain hc ho,
    (isFront_undominated hleft).eq (hfront.self hplain) hleft, fun others hperm => ?_, ?_⟩
  · have hplain' : ∀ c ∈ others, c.Plain := fun c hc => hplain c (hperm.mem_iff.mpr hc)
    exact (isFront_undominated hplain').map_times_eq hfront (fun _ => hperm.mem_iff.symm) hplain'
  · rintro before after c o rfl hc ho hdominates hne
    refine (isFront_undominated fun d hd => ?_).eq
      (hfront.insert hplain hc ho hdominates hne) fun d hd => ?_
    all_goals
      rcases List.mem_append.mp hd with hd | hd
      · exact hplain d (List.mem_append_left after hd)
      · rcases List.mem_cons.mp hd with rfl | hd
        · exact hc
        · exact hplain d (List.mem_append_right before hd)

/-- A ride without walks. -/
def cab (departure travelTime : Float) : Connection Float where
  departure := departure
  travelTime := travelTime
  accessTime := 0
  egressTime := 0
  transfers := 0
  inVehicleTime := travelTime
  inVehicleDistance := 1000
  trainTime := 0
  trainDistance := 0

/-- Some leave at the same time, some arrive at the same time, and two do both. -/
def cabs : List (Connection Float) :=
  [cab 20 180, cab 0 100, cab 10 90, cab 20 130, cab 10 90]

/-- The one that leaves at 5 and arrives at 155 makes no difference. -/
theorem cabs_front : (∀ c ∈ cabs, c.Plain) ∧ (cab 5 150).Plain ∧
    IsFront cabs (undominated cabs) ∧
    undominated (undominated cabs) = undominated cabs ∧
    (undominated cabs.reverse).map times = (undominated cabs).map times ∧
    undominated (cab 5 150 :: cabs) = undominated cabs := by
  have hplain : ∀ c ∈ cabs, c.Plain := by decide +kernel
  have hlate : (cab 5 150).Plain := by decide +kernel
  have hdominates : (cab 10 90).Dominates (cab 5 150) := by
    constructor <;> decide +kernel
  have hne : (cab 10 90).times ≠ (cab 5 150).times := by decide +kernel
  obtain ⟨hfront, -, hagain, horder, hinsert⟩ := undominated_front cabs hplain
  exact ⟨hplain, hlate, hfront, hagain, horder _ (List.reverse_perm cabs).symm,
    hinsert [] cabs (cab 5 150) (cab 10 90) rfl hlate (by simp [cabs]) hdominates
      hne⟩

end ZoneSkims
