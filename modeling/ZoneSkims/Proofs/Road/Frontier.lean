import ZoneSkims.Proofs.Scalar.Laws
import ZoneSkims.Road.Frontier

/-!
# The first entry of a frontier

A frontier keeps its entries as they were pushed, each as often as it was pushed, and the entry that
leaves it comes before all others.

* `Frontier.Valid`: a single heap in which every top comes before the entries below it.
* `Frontier.toList_push`, `Frontier.Valid.push`: what pushing does.
* `Frontier.Valid.pop`: what leaves, and what stays.
-/

namespace ZoneSkims

variable {α : Type} [Scalar α]

/-! ## The order of entries -/

namespace Frontier.Entry

variable [LawfulScalar α] {a b c : Frontier.Entry α}

instance : Std.TransCmp (fun a b : Frontier.Entry α => Scalar.order a.cost b.cost) where
  eq_swap {a b} := (Std.OrientedCmp.eq_swap : Scalar.order a.cost b.cost = _)
  isLE_trans {a _ c} h h' :=
    (Std.TransCmp.isLE_trans h h' : (Scalar.order a.cost c.cost).isLE = true)

instance : Std.TransCmp (compare : Frontier.Entry α → Frontier.Entry α → Ordering) :=
  inferInstanceAs (Std.TransCmp
    (compareLex (fun a b : Frontier.Entry α => Scalar.order a.cost b.cost)
      (compareOn fun a : Frontier.Entry α => a.node.raw)))

theorem precedes_refl (a : Frontier.Entry α) : a.precedes a = true := by
  have hself : a.compare a = .eq := Std.ReflCmp.compare_self
  rw [precedes, hself]
  rfl

theorem precedes_of_not (h : ¬ a.precedes b = true) : b.precedes a = true := by
  have hswap : b.compare a = (a.compare b).swap := Std.OrientedCmp.eq_swap
  unfold precedes at *
  rw [hswap]
  cases hab : a.compare b with
  | lt => exact absurd (by rw [hab]; rfl) h
  | eq => rfl
  | gt => rfl

theorem precedes_trans (h : a.precedes b = true) (h' : b.precedes c = true) :
    a.precedes c = true :=
  (Std.TransCmp.isLE_trans h h' : (a.compare c).isLE = true)

/-- What leaves the frontier first is not dearer. -/
theorem not_cost_lt (h : a.precedes b = true) : ¬ b.cost < a.cost := by
  refine LawfulScalar.not_lt_of_orderedLe ?_
  unfold precedes compare at h
  unfold Scalar.orderedLe
  cases hab : Scalar.order a.cost b.cost with
  | lt => rfl
  | eq => rfl
  | gt => rw [hab] at h; exact h

end Frontier.Entry

namespace Frontier

/-! ## Heaps -/

/-- A chain of one heap at most. -/
def Single : Frontier α → Prop
  | empty => True
  | heap _ _ siblings => siblings = empty

/-- In every heap of a chain, the top comes before the entries below it. -/
def Ordered : Frontier α → Prop
  | empty => True
  | heap top children siblings =>
    (∀ entry ∈ children.toList, top.precedes entry = true) ∧ children.Ordered ∧ siblings.Ordered

/-- The frontiers that a search can have. -/
structure Valid (frontier : Frontier α) : Prop where
  single : frontier.Single
  ordered : frontier.Ordered

theorem Valid.empty : Valid (empty : Frontier α) := ⟨trivial, trivial⟩

theorem Valid.heap {top : Entry α} {children : Frontier α}
    (hchildren : children.Ordered) (htop : ∀ entry ∈ children.toList, top.precedes entry = true) :
    Valid (heap top children .empty) :=
  ⟨rfl, htop, hchildren, trivial⟩

/-- A valid frontier is empty, or its top comes before all entries below. -/
theorem Valid.cases {frontier : Frontier α} (h : frontier.Valid) :
    frontier = .empty ∨ ∃ top children, frontier = .heap top children .empty ∧ children.Ordered ∧
      ∀ entry ∈ children.toList, top.precedes entry = true := by
  cases frontier with
  | empty => exact Or.inl rfl
  | heap top children siblings =>
    obtain ⟨rfl, htop, hchildren, -⟩ := h
    exact Or.inr ⟨top, children, rfl, hchildren, htop⟩

theorem pop?_eq_none {frontier : Frontier α} : frontier.pop? = none ↔ frontier.toList = [] := by
  cases frontier with
  | empty => exact iff_of_true rfl rfl
  | heap top children siblings => exact iff_of_false nofun nofun

theorem toList_meld {f g : Frontier α} (hf : f.Valid) (hg : g.Valid) :
    (f.meld g).toList.Perm (f.toList ++ g.toList) := by
  obtain rfl | ⟨a, as, rfl, -, -⟩ := hf.cases
  · exact List.Perm.refl _
  obtain rfl | ⟨b, bs, rfl, -, -⟩ := hg.cases
  · exact List.Perm.of_eq (List.append_nil _).symm
  rw [Frontier.meld]
  split
  · simp only [toList, List.append_nil, List.cons_append]
    apply List.Perm.cons
    exact (List.perm_append_comm : (b :: bs.toList ++ as.toList).Perm _)
  · simp only [toList, List.append_nil]
    exact (List.perm_middle : (a :: as.toList ++ b :: bs.toList).Perm _).symm

theorem toList_push {frontier : Frontier α} (h : frontier.Valid) (entry : Entry α) :
    (frontier.push entry).toList.Perm (entry :: frontier.toList) :=
  toList_meld (Valid.heap trivial fun _ hentry => absurd hentry List.not_mem_nil) h

/-- What a frontier gives comes before all its entries, and the others stay. -/
structure Popped (frontier : Frontier α) (entry : Entry α) (rest : Frontier α) : Prop where
  valid : rest.Valid
  perm : frontier.toList.Perm (entry :: rest.toList)
  first : ∀ other ∈ frontier.toList, entry.precedes other = true

theorem Popped.mem_iff {frontier rest : Frontier α} {entry other : Entry α}
    (h : Popped frontier entry rest) :
    other ∈ frontier.toList ↔ other = entry ∨ other ∈ rest.toList :=
  h.perm.mem_iff.trans List.mem_cons

theorem Popped.mem_top {frontier rest : Frontier α} {entry : Entry α}
    (h : Popped frontier entry rest) : entry ∈ frontier.toList :=
  h.mem_iff.mpr (Or.inl rfl)

theorem Popped.mem_of_rest {frontier rest : Frontier α} {entry other : Entry α}
    (h : Popped frontier entry rest) (hother : other ∈ rest.toList) : other ∈ frontier.toList :=
  h.mem_iff.mpr (Or.inr hother)

variable [LawfulScalar α]

/-- A top comes before the entries of a heap whose top it comes before. -/
theorem precedes_all {a b : Entry α} {children : Frontier α} (hab : a.precedes b = true)
    (hchildren : ∀ entry ∈ children.toList, b.precedes entry = true) :
    ∀ entry ∈ b :: children.toList, a.precedes entry = true := by
  intro entry hentry
  rcases List.mem_cons.mp hentry with rfl | hentry
  · exact hab
  · exact Entry.precedes_trans hab (hchildren entry hentry)

theorem Valid.meld {f g : Frontier α} (hf : f.Valid) (hg : g.Valid) : (f.meld g).Valid := by
  obtain rfl | ⟨a, as, rfl, has, ha⟩ := hf.cases
  · rwa [Frontier.meld]
  obtain rfl | ⟨b, bs, rfl, hbs, hb⟩ := hg.cases
  · exact hf
  rw [Frontier.meld]
  split
  case isTrue hab =>
    refine Valid.heap ⟨hb, hbs, has⟩ fun entry hentry => ?_
    rw [toList, ← List.cons_append] at hentry
    rcases List.mem_append.mp hentry with hentry | hentry
    · exact precedes_all hab hb entry hentry
    · exact ha entry hentry
  case isFalse hab =>
    refine Valid.heap ⟨ha, has, hbs⟩ fun entry hentry => ?_
    rw [toList, ← List.cons_append] at hentry
    rcases List.mem_append.mp hentry with hentry | hentry
    · exact precedes_all (Entry.precedes_of_not hab) ha entry hentry
    · exact hb entry hentry

/-- The heaps of a chain become one heap with the same entries. -/
theorem meldAll_spec (f : Frontier α) (hf : f.Ordered) :
    f.meldAll.Valid ∧ f.meldAll.toList.Perm f.toList := by
  induction f using meldAll.induct with
  | case1 => exact ⟨Valid.empty, List.Perm.refl _⟩
  | case2 a as => exact ⟨Valid.heap hf.2.1 hf.1, List.Perm.refl _⟩
  | case3 a as b bs rest ih =>
    obtain ⟨ha, has, hb, hbs, hrest⟩ := hf
    obtain ⟨hvalid, hperm⟩ := ih hrest
    have hpair := (Valid.heap has ha).meld (Valid.heap hbs hb)
    refine ⟨hpair.meld hvalid, (toList_meld hpair hvalid).trans ?_⟩
    refine ((toList_meld (Valid.heap has ha) (Valid.heap hbs hb)).append hperm).trans ?_
    simp [toList]

/-! ## Pushing and taking -/

theorem Valid.push {frontier : Frontier α} (h : frontier.Valid) (entry : Entry α) :
    (frontier.push entry).Valid :=
  Valid.meld (Valid.heap trivial fun _ hentry => absurd hentry List.not_mem_nil) h

theorem Valid.pop {frontier rest : Frontier α} {entry : Entry α} (h : frontier.Valid)
    (hpop : frontier.pop? = some (entry, rest)) : Popped frontier entry rest := by
  obtain rfl | ⟨top, children, rfl, hchildren, htop⟩ := h.cases
  · cases hpop
  obtain ⟨rfl, rfl⟩ : top = entry ∧ children.meldAll = rest := by
    simpa [pop?] using hpop
  obtain ⟨hvalid, hperm⟩ := meldAll_spec children hchildren
  refine ⟨hvalid, ?_, fun other hother => ?_⟩
  · simpa [toList] using hperm.symm.cons top
  · rw [toList, toList, List.append_nil] at hother
    exact precedes_all (Entry.precedes_refl top) htop other hother

end Frontier

end ZoneSkims
