import Mathlib.Data.List.Induction
import Mathlib.Data.List.Sort
import Mathlib.Data.String.Basic
import ZoneSkims.Zone.Table

/-!
# Tables as maps

A table is read by looking up the entry of a zone. As the ids ascend there is one entry for a zone
at most, replacing it changes what is answered for that zone alone, and two tables with the same
answers are equal. The entry of a zone in a table of groups is what the list has for the zone, in the
order of the list, so nothing else of that order is left in the table.

* `ZoneTable.Ascending`: the ids are in ascending order.
* `ZoneTable.lookup_group`: what a table of groups answers.
* `ZoneTable.Ascending.ext`: the answers determine a table.
* `ZoneTable.Ascending.split`: the part of a table up to a zone comes before the others.
-/

namespace ZoneSkims.ZoneTable

variable {γ : Type} {id other : ZoneId} {table table' : ZoneTable γ}

/-- The ids are in ascending order, and no two are the same. -/
def Ascending (table : ZoneTable γ) : Prop := table.Pairwise fun a b => a.1 < b.1

theorem ascending_congr {δ : Type} {tableOf : ZoneTable δ}
    (h : table.map Prod.fst = tableOf.map Prod.fst) : Ascending table ↔ Ascending tableOf := by
  rw [Ascending, Ascending, ← List.pairwise_map, ← List.pairwise_map (f := Prod.fst), h]

/-! ## Answers -/

theorem lookup_cons (id other : ZoneId) (entry : γ) (rest : ZoneTable γ) :
    List.lookup id ((other, entry) :: rest) =
      if id = other then some entry else List.lookup id rest := by
  rw [List.lookup_cons]
  by_cases h : id = other
  · rw [if_pos h, beq_iff_eq.mpr h]
  · rw [if_neg h, beq_eq_false_iff_ne.mpr h]

theorem lookup_eq_none (h : ∀ p ∈ table, p.1 ≠ id) : table.lookup id = none := by
  rw [List.lookup_eq_none_iff]
  intro p hp
  simpa using (h p hp).symm

theorem Ascending.mem_iff (h : Ascending table) {entry : γ} :
    (id, entry) ∈ table ↔ table.lookup id = some entry := by
  induction table with
  | nil => simp
  | cons p rest ih =>
    obtain ⟨first, e⟩ := p
    obtain ⟨hfirst, hrest⟩ := List.pairwise_cons.mp h
    rw [List.mem_cons, lookup_cons, ih hrest, Prod.mk.injEq]
    by_cases hid : id = first
    · subst hid
      have hnone : List.lookup id rest = none := lookup_eq_none fun p hp => (hfirst p hp).ne'
      simp [hnone, eq_comm]
    · simp [hid]

/-- The answers determine a table. -/
theorem Ascending.ext (h : Ascending table) (h' : Ascending table')
    (hlookup : ∀ id, table.lookup id = table'.lookup id) : table = table' := by
  have hirrefl : Std.Irrefl fun a b : ZoneId × γ => a.1 < b.1 := ⟨fun _ => lt_irrefl _⟩
  have hantisymm : Std.Antisymm fun a b : ZoneId × γ => a.1 < b.1 :=
    ⟨fun _ _ hlt hgt => absurd hgt (lt_asymm hlt)⟩
  apply List.Pairwise.eq_of_mem_iff h h'
  intro p
  rw [h.mem_iff, h'.mem_iff, hlookup]

/-! ## Replaced entries -/

theorem mem_alter {change : Option γ → γ} {p : ZoneId × γ} (hp : p ∈ alter id change table) :
    p.1 = id ∨ p ∈ table := by
  induction table with
  | nil => simp_all [alter]
  | cons q rest ih =>
    obtain ⟨first, e⟩ := q
    rw [alter] at hp
    split_ifs at hp with hlt hid
    · rcases List.mem_cons.mp hp with rfl | hp
      · exact .inl rfl
      · exact .inr hp
    · rcases List.mem_cons.mp hp with rfl | hp
      · exact .inl rfl
      · exact .inr (List.mem_cons_of_mem _ hp)
    · rcases List.mem_cons.mp hp with rfl | hp
      · exact .inr List.mem_cons_self
      · exact (ih hp).imp_right (List.mem_cons_of_mem _)

theorem Ascending.alter (h : Ascending table) (id : ZoneId) (change : Option γ → γ) :
    Ascending (alter id change table) := by
  induction table with
  | nil => simp [ZoneTable.alter, Ascending]
  | cons q rest ih =>
    obtain ⟨first, e⟩ := q
    obtain ⟨hfirst, hrest⟩ := List.pairwise_cons.mp h
    rw [ZoneTable.alter]
    split_ifs with hlt hid
    · refine List.pairwise_cons.mpr ⟨?_, h⟩
      intro p hp
      rcases List.mem_cons.mp hp with rfl | hp
      · exact hlt
      · exact lt_trans hlt (hfirst p hp)
    · subst hid
      exact List.pairwise_cons.mpr ⟨hfirst, hrest⟩
    · refine List.pairwise_cons.mpr ⟨?_, ih hrest⟩
      intro p hp
      rcases mem_alter hp with hp | hp
      · rw [hp]
        exact lt_of_le_of_ne (not_lt.mp hlt) (Ne.symm hid)
      · exact hfirst p hp

/-- Replacing the entry of a zone changes the answer for this zone alone. -/
theorem Ascending.lookup_alter (h : Ascending table) (id other : ZoneId)
    (change : Option γ → γ) : (ZoneTable.alter id change table).lookup other =
      if other = id then some (change (table.lookup id)) else table.lookup other := by
  induction table with
  | nil => simp [ZoneTable.alter, lookup_cons]
  | cons q rest ih =>
    obtain ⟨first, e⟩ := q
    obtain ⟨hfirst, hrest⟩ := List.pairwise_cons.mp h
    rw [ZoneTable.alter]
    by_cases hlt : id < first
    · have hnone : List.lookup id ((first, e) :: rest) = none := by
        apply lookup_eq_none
        intro p hp
        rcases List.mem_cons.mp hp with rfl | hp
        · exact hlt.ne'
        · exact (lt_trans hlt (hfirst p hp)).ne'
      rw [if_pos hlt, lookup_cons, hnone]
    · rw [if_neg hlt]
      by_cases hid : id = first
      · subst hid
        rw [if_pos rfl, lookup_cons, lookup_cons, if_pos rfl, lookup_cons]
        split_ifs <;> rfl
      · rw [if_neg hid, lookup_cons, ih hrest, lookup_cons, lookup_cons, if_neg hid]
        by_cases hother : other = id
        · subst hother
          rw [if_pos rfl, if_neg hid, if_pos rfl]
        · rw [if_neg hother, if_neg hother]

/-! ## Groups -/

/-- What a list has for a zone, in the order of the list. -/
def entriesOf (id : ZoneId) (entries : List (ZoneId × γ)) : List γ :=
  (entries.filter fun p => p.1 = id).map Prod.snd

theorem entriesOf_concat (id : ZoneId) (entries : List (ZoneId × γ)) (p : ZoneId × γ) :
    entriesOf id (entries ++ [p]) =
      if p.1 = id then entriesOf id entries ++ [p.2] else entriesOf id entries := by
  by_cases h : p.1 = id <;> simp [entriesOf, h]

/-- A table of groups holds for each zone what the list has for it. -/
theorem group_spec (entries : List (ZoneId × γ)) :
    Ascending (group entries) ∧ ∀ id, (group entries).lookup id =
      if entriesOf id entries = [] then none else some (entriesOf id entries) := by
  induction entries using List.reverseRecOn with
  | nil => exact ⟨List.Pairwise.nil, fun id => rfl⟩
  | append_singleton entries p ih =>
    obtain ⟨hascending, hlookup⟩ := ih
    have hgroup : group (entries ++ [p]) =
        (group entries).alter p.1 fun xs => xs.getD [] ++ [p.2] := by
      rw [group, List.foldl_append]
      rfl
    rw [hgroup]
    refine ⟨hascending.alter _ _, ?_⟩
    intro id
    rw [hascending.lookup_alter, entriesOf_concat]
    by_cases hid : id = p.1
    · subst hid
      rw [if_pos rfl, if_pos rfl, hlookup]
      split_ifs <;> simp_all
    · rw [if_neg hid, if_neg (Ne.symm hid), hlookup]

theorem ascending_group (entries : List (ZoneId × γ)) : Ascending (group entries) :=
  (group_spec entries).1

theorem lookup_group (id : ZoneId) (entries : List (ZoneId × γ)) : (group entries).lookup id =
    if entriesOf id entries = [] then none else some (entriesOf id entries) :=
  (group_spec entries).2 id

theorem mem_group {entries : List (ZoneId × γ)} {group : List γ} :
    (id, group) ∈ ZoneTable.group entries ↔ group ≠ [] ∧ group = entriesOf id entries := by
  rw [(ascending_group entries).mem_iff, lookup_group]
  split_ifs with h
  · simp [h]
  · constructor
    · intro hsome
      cases hsome
      exact ⟨h, rfl⟩
    · rintro ⟨-, rfl⟩
      rfl

/-! ## Zones in order -/

/-- The entries of a table up to a zone. -/
def upTo (last : ZoneId) (table : ZoneTable γ) : ZoneTable γ := table.filter fun p => p.1 ≤ last

/-- The entries up to a zone come first. -/
theorem Ascending.split (h : Ascending table) (last : ZoneId) :
    ∃ later, table = upTo last table ++ later ∧ ∀ p ∈ later, last < p.1 := by
  induction table with
  | nil => exact ⟨[], rfl, by simp⟩
  | cons p rest ih =>
    obtain ⟨hfirst, hrest⟩ := List.pairwise_cons.mp h
    by_cases hp : p.1 ≤ last
    · obtain ⟨later, hsplit, hlater⟩ := ih hrest
      refine ⟨later, ?_, hlater⟩
      rw [upTo, List.filter_cons_of_pos (by simpa using hp), List.cons_append]
      exact congrArg (p :: ·) hsplit
    · have hall : ∀ q ∈ p :: rest, last < q.1 := by
        intro q hq
        rcases List.mem_cons.mp hq with rfl | hq
        · exact not_le.mp hp
        · exact lt_trans (not_le.mp hp) (hfirst q hq)
      refine ⟨p :: rest, ?_, hall⟩
      have hnone : upTo last (p :: rest) = [] := by
        rw [upTo, List.filter_eq_nil_iff]
        intro q hq
        simpa using hall q hq
      rw [hnone, List.nil_append]

theorem Ascending.upTo (h : Ascending table) (last : ZoneId) : Ascending (upTo last table) :=
  List.Pairwise.filter _ h

theorem Ascending.lookup_upTo (h : Ascending table) {last : ZoneId} (hid : id ≤ last) :
    (ZoneTable.upTo last table).lookup id = table.lookup id := by
  obtain ⟨later, hsplit, hlater⟩ := h.split last
  have hnone : List.lookup id later = none :=
    lookup_eq_none fun p hp => (lt_of_le_of_lt hid (hlater p hp)).ne'
  conv_rhs => rw [hsplit, List.lookup_append, hnone, Option.or_none]

/-- Tables with the same answers up to a zone are the same up to that zone. -/
theorem Ascending.upTo_eq (h : Ascending table) (h' : Ascending table') {last : ZoneId}
    (hlookup : ∀ id ≤ last, table.lookup id = table'.lookup id) :
    ZoneTable.upTo last table = ZoneTable.upTo last table' := by
  apply (h.upTo last).ext (h'.upTo last)
  intro id
  by_cases hid : id ≤ last
  · rw [h.lookup_upTo hid, h'.lookup_upTo hid, hlookup id hid]
  · have hnone (t : ZoneTable γ) : (ZoneTable.upTo last t).lookup id = none := by
      apply lookup_eq_none
      rintro p hp rfl
      simp only [ZoneTable.upTo, List.mem_filter, decide_eq_true_eq] at hp
      exact hid hp.2
    rw [hnone, hnone]

end ZoneSkims.ZoneTable
