import Mathlib.Logic.Relation
import ZoneSkims.Proofs.Scalar.Laws
import ZoneSkims.Transit.Router

/-!
# Improvements

A search by rounds only ever puts an arrival in the place of a strictly later one. What its parts do
to the arrivals is therefore said by the kind of the arrivals that they put.

* `RoundState.Improvements`: improvements by arrivals of one kind, one after the other.
* `Within`: an arrival that is no later than a time. Improvements keep it.
* `RoundState.Since`: what improvements have made of the arrivals at their start.
-/

namespace ZoneSkims

variable {α : Type} [Scalar α]

/-- The stop is reached no later than `time`. -/
def Within (best : Array (Arrival α)) (stop : StopId) (time : α) : Prop :=
  ∃ label, best[stop.index]? = some label ∧ label.time ≤ time

/-- No arrival is at an undefined time. -/
def Defined (best : Array (Arrival α)) : Prop :=
  ∀ (stop : StopId) (label : Arrival α),
    best[stop.index]? = some label → Scalar.IsNumber label.time

namespace RoundState

/-- An arrival of a kind takes the place of a strictly later one. -/
inductive Improves (P : StopId → Arrival α → Prop) : RoundState α → RoundState α → Prop
  | improve {state : RoundState α} {stop : StopId} {known label : Arrival α}
      (hknown : state.best[stop.index]? = some known) (hlt : label.time < known.time)
      (hkind : P stop label) : Improves P state (state.improve stop label)

/-- Improvements by arrivals of a kind. -/
abbrev Improvements (P : StopId → Arrival α → Prop) : RoundState α → RoundState α → Prop :=
  Relation.ReflTransGen (Improves P)

/-! ## One improvement -/

section One

variable {state : RoundState α} {stop other : StopId} {label known : Arrival α}

omit [Scalar α]

theorem size_improve : (state.improve stop label).best.size = state.best.size := by
  simp [improve]

theorem getElem?_improve_self (hknown : state.best[stop.index]? = some known) :
    (state.improve stop label).best[stop.index]? = some label := by
  have hlt := (Array.getElem?_eq_some_iff.mp hknown).1
  simp [improve, Array.getElem?_setIfInBounds_self_of_lt hlt]

theorem getElem?_improve_of_ne (hne : other ≠ stop) :
    (state.improve stop label).best[other.index]? = state.best[other.index]? := by
  have hindex : stop.index ≠ other.index := fun h => hne (Id.index_injective h).symm
  simp [improve, Array.getElem?_setIfInBounds_ne hindex]

theorem mem_improved_improve :
    other ∈ (state.improve stop label).improved ↔ other = stop ∨ other ∈ state.improved := by
  unfold improve
  by_cases hmem : stop ∈ state.improved
  · simp only [if_pos hmem]
    constructor
    · exact Or.inr
    · rintro (rfl | h)
      · exact hmem
      · exact h
  · simp [if_neg hmem]

end One

/-! ## Improvements of one kind -/

section Kind

variable {P Q : StopId → Arrival α → Prop} {state next : RoundState α}

theorem Improvements.mono (hPQ : ∀ stop label, P stop label → Q stop label)
    (h : Improvements P state next) : Improvements Q state next := by
  induction h with
  | refl => exact .refl
  | tail _ hstep ih =>
    cases hstep with
    | improve hknown hlt hkind => exact ih.tail (.improve hknown hlt (hPQ _ _ hkind))

theorem Improvements.size (h : Improvements P state next) : next.best.size = state.best.size := by
  induction h with
  | refl => rfl
  | tail _ hstep ih =>
    cases hstep with
    | improve _ _ _ => rw [size_improve, ih]

/-- An arrival was there before or is of the kind. -/
theorem Improvements.cases (h : Improvements P state next) {stop : StopId} {label : Arrival α}
    (hlabel : next.best[stop.index]? = some label) :
    state.best[stop.index]? = some label ∨ P stop label := by
  induction h with
  | refl => exact .inl hlabel
  | tail _ hstep ih =>
    cases hstep with
    | @improve other known new hknown _ hkind =>
      by_cases hstop : stop = other
      · subst hstop
        cases (getElem?_improve_self hknown).symm.trans hlabel
        exact .inr hkind
      · rw [getElem?_improve_of_ne hstop] at hlabel
        exact ih hlabel

variable [LawfulScalar α]

/-- A stop is not reached later than before. -/
theorem Improvements.within (h : Improvements P state next) {stop : StopId} {time : α}
    (hwithin : Within state.best stop time) : Within next.best stop time := by
  induction h with
  | refl => exact hwithin
  | tail _ hstep ih =>
    cases hstep with
    | @improve other known label hknown hlt _ =>
      obtain ⟨here, hhere, hle⟩ := ih
      by_cases hstop : stop = other
      · subst hstop
        cases hknown.symm.trans hhere
        exact ⟨label, getElem?_improve_self hknown, Scalar.le_of_lt (Scalar.lt_of_lt_of_le hlt hle)⟩
      · exact ⟨here, by rw [getElem?_improve_of_ne hstop, hhere], hle⟩

theorem Improvements.defined (h : Improvements P state next) (hdefined : Defined state.best) :
    Defined next.best := by
  induction h with
  | refl => exact hdefined
  | tail _ hstep ih =>
    cases hstep with
    | @improve other known label hknown hlt _ =>
      intro stop here hhere
      by_cases hstop : stop = other
      · subst hstop
        cases (getElem?_improve_self hknown).symm.trans hhere
        exact Scalar.isNumber_left (Scalar.le_of_lt hlt)
      · rw [getElem?_improve_of_ne hstop] at hhere
        exact ih stop here hhere

end Kind

/-! ## Since the start -/

/-- Compared with the arrivals `before`, the improved stops have an earlier one, of a kind, and the
others have the same one. -/
structure Since (P : StopId → Arrival α → Prop) (before : Array (Arrival α))
    (state : RoundState α) : Prop where
  size : state.best.size = before.size
  kept : ∀ stop, stop ∉ state.improved → state.best[stop.index]? = before[stop.index]?
  gained : ∀ stop, stop ∈ state.improved → ∃ known label, before[stop.index]? = some known ∧
    state.best[stop.index]? = some label ∧ label.time < known.time ∧ P stop label

namespace Since

variable {P Q : StopId → Arrival α → Prop} {before : Array (Arrival α)} {state next : RoundState α}

theorem start (before : Array (Arrival α)) : Since P before { best := before, improved := [] } :=
  ⟨rfl, fun _ _ => rfl, fun _ h => absurd h List.not_mem_nil⟩

theorem mono (hPQ : ∀ stop label, P stop label → Q stop label) (h : Since P before state) :
    Since Q before state := by
  refine { h with gained := fun stop hstop => ?_ }
  obtain ⟨known, label, hknown, hlabel, hlt, hkind⟩ := h.gained stop hstop
  exact ⟨known, label, hknown, hlabel, hlt, hPQ stop label hkind⟩

/-- An arrival was there before, or is of the kind and strictly earlier. -/
theorem cases (h : Since P before state) {stop : StopId} {label : Arrival α}
    (hlabel : state.best[stop.index]? = some label) :
    (stop ∉ state.improved ∧ before[stop.index]? = some label) ∨
      stop ∈ state.improved ∧ P stop label ∧
        ∃ known, before[stop.index]? = some known ∧ label.time < known.time := by
  by_cases hstop : stop ∈ state.improved
  · obtain ⟨known, label', hknown, hlabel', hlt, hkind⟩ := h.gained stop hstop
    cases hlabel.symm.trans hlabel'
    exact .inr ⟨hstop, hkind, known, hknown, hlt⟩
  · exact .inl ⟨hstop, (h.kept stop hstop).symm.trans hlabel⟩

theorem lt_size_of_mem (h : Since P before state) {stop : StopId} (hstop : stop ∈ state.improved) :
    stop.index < before.size := by
  obtain ⟨known, label, hknown, -⟩ := h.gained stop hstop
  exact (Array.getElem?_eq_some_iff.mp hknown).1

theorem improvements [LawfulScalar α] (h : Since P before state)
    (hnext : Improvements P state next) :
    Since P before next := by
  induction hnext with
  | refl => exact h
  | tail _ hstep ih =>
    cases hstep with
    | @improve other known label hknown hlt hkind =>
      refine ⟨size_improve.trans ih.size, fun stop hstop => ?_, fun stop hstop => ?_⟩
      · rw [mem_improved_improve, not_or] at hstop
        rw [getElem?_improve_of_ne hstop.1]
        exact ih.kept stop hstop.2
      · by_cases hother : stop = other
        · subst hother
          rcases ih.cases hknown with ⟨-, hold⟩ | ⟨-, -, old, hold, hold'⟩
          · exact ⟨known, label, hold, getElem?_improve_self hknown, hlt, hkind⟩
          · exact ⟨old, label, hold, getElem?_improve_self hknown, Scalar.lt_trans hlt hold', hkind⟩
        · rw [mem_improved_improve] at hstop
          rw [getElem?_improve_of_ne hother]
          exact ih.gained stop (hstop.resolve_left hother)

end Since

end RoundState

end ZoneSkims
