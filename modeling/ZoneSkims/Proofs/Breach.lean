import ZoneSkims.Proofs.Outcome

/-!
# Breaches of calculations

Faults are part of what a calculation promises, breaches are not. The rules below follow a
calculation step by step and say which breaches it can end in, if any.

* `mapM_eq_error_iff`: the failures of a sequence of calculations.
* `Breaks`: the breaches that a calculation can end in.
* `Breaks.bind`, `Breaks.foldlM`: one calculation after the other.
* `Breaks.lift`: a calculation that has no other failure.
-/

namespace ZoneSkims

variable {ε δ α β : Type} {P Q : Breach → Prop}

/-- A sequence of two calculations fails when the first does, or the second after it. -/
theorem bind_eq_error {x : Except ε α} {f : α → Except ε β} {e : ε} :
    x >>= f = .error e ↔ x = .error e ∨ ∃ a, x = .ok a ∧ f a = .error e := by
  cases x with
  | error e' => simp [bind, Except.bind]
  | ok a => simp [bind, Except.bind]

/-- A sequence of calculations fails like the first of them that fails. -/
theorem mapM_eq_error_iff {xs : List α} {f : α → Except ε β} {e : ε} :
    xs.mapM f = .error e ↔ ∃ before a after, xs = before ++ a :: after ∧
      (∀ b ∈ before, ∃ y, f b = .ok y) ∧ f a = .error e := by
  induction xs with
  | nil => exact iff_of_false nofun (by simp)
  | cons x xs ih =>
    rw [List.mapM_cons, bind_eq_error]
    constructor
    · rintro (hfirst | ⟨y, hy, h⟩)
      · exact ⟨[], x, xs, rfl, nofun, hfirst⟩
      · rcases bind_eq_error.mp h with hrest | ⟨ys, -, h⟩
        · obtain ⟨before, a, after, rfl, hbefore, hfails⟩ := ih.mp hrest
          exact ⟨x :: before, a, after, rfl, List.forall_mem_cons.mpr ⟨⟨y, hy⟩, hbefore⟩, hfails⟩
        · cases h
    · rintro ⟨before, a, after, hxs, hbefore, hfails⟩
      cases before with
      | nil =>
        cases hxs
        exact .inl hfails
      | cons b before =>
        cases hxs
        obtain ⟨⟨y, hy⟩, hbefore⟩ := List.forall_mem_cons.mp hbefore
        have hrest := ih.mpr ⟨before, a, after, rfl, hbefore, hfails⟩
        exact .inr ⟨y, hy, bind_eq_error.mpr (.inl hrest)⟩

/-- A sequence of calculations fails like one of them. -/
theorem exists_of_mapM_eq_error {xs : List α} {f : α → Except ε β} {e : ε}
    (h : xs.mapM f = .error e) : ∃ a ∈ xs, f a = .error e := by
  obtain ⟨before, a, after, rfl, -, hfails⟩ := mapM_eq_error_iff.mp h
  exact ⟨a, List.mem_append_right before List.mem_cons_self, hfails⟩

/-- Every breach that `x` ends in satisfies `P`. -/
def Breaks (P : Breach → Prop) (x : Outcome ε α) : Prop :=
  ∀ b, x = .error (.breach b) → P b

/-- The breach that `x` ends in, if it ends in one. -/
def breach? (x : Outcome ε α) : Option Breach :=
  match x with
  | .error (.breach b) => some b
  | _ => none

theorem eq_error_of_breach? {x : Outcome ε α} {b : Breach} (h : breach? x = some b) :
    x = .error (.breach b) := by
  unfold breach? at h
  split at h
  · cases h
    rfl
  · cases h

/-- The fault that `x` ends in, if it ends in one. -/
def fault? (x : Outcome ε α) : Option ε :=
  match x with
  | .error (.fault e) => some e
  | _ => none

theorem eq_error_of_fault? {x : Outcome ε α} {e : ε} (h : fault? x = some e) :
    x = .error (.fault e) := by
  unfold fault? at h
  split at h
  · cases h
    rfl
  · cases h

/-- `x` ends in a result or in a fault. -/
abbrev Unbroken (x : Outcome ε α) : Prop := Breaks (fun _ => False) x

namespace Breaks

variable {x : Outcome ε α}

theorem pure (a : α) : Breaks P (pure a : Outcome ε α) := nofun

theorem fail (error : ε) : Breaks P (ZoneSkims.fail error : Outcome ε α) := nofun

theorem mono (h : Breaks P x) (hPQ : ∀ b, P b → Q b) : Breaks Q x :=
  fun b hb => hPQ b (h b hb)

theorem unbroken (h : Unbroken x) : Breaks P x := h.mono fun _ => False.elim

theorem bind {f : α → Outcome ε β} (hx : Breaks P x) (hf : ∀ a, x = .ok a → Breaks P (f a)) :
    Breaks P (x >>= f) := by
  intro b hb
  rcases bind_eq_error.mp hb with h | ⟨a, ha, h⟩
  · exact hx b h
  · exact hf a ha b h

/-- A calculation that can fail only by a breach. -/
theorem lift {y : Checked α} (h : ∀ b, y = .error b → P b) : Breaks P (liftM y : Outcome ε α) := by
  intro b hb
  cases y with
  | error b' =>
    cases hb
    exact h b rfl
  | ok a => cases hb

theorem lift_of_ok {y : Checked α} (h : ∃ a, y = .ok a) : Breaks P (liftM y : Outcome ε α) := by
  obtain ⟨a, rfl⟩ := h
  exact lift nofun

/-- Faults that are restated are still no breaches. -/
theorem restate (f : ε → δ) (hx : Breaks P x) :
    Breaks P (x.mapError (Failure.map f) : Outcome δ α) := by
  intro b hb
  cases x with
  | ok a => cases hb
  | error e =>
    cases e with
    | fault error => cases hb
    | breach b' =>
      cases hb
      exact hx b rfl

theorem mapM {xs : List α} {f : α → Outcome ε β} (hf : ∀ a ∈ xs, Breaks P (f a)) :
    Breaks P (xs.mapM f) := by
  intro b hb
  obtain ⟨a, ha, hfails⟩ := exists_of_mapM_eq_error hb
  exact hf a ha b hfails

/-- A fold breaks as its steps do, which may rely on what all of them keep. -/
theorem foldlM {xs : List α} {f : β → α → Outcome ε β} {b : β} (I : β → Prop) (h0 : I b)
    (hkeeps : ∀ x ∈ xs, ∀ b, I b → Ok (f b x) I) (hf : ∀ x ∈ xs, ∀ b, I b → Breaks P (f b x)) :
    Breaks P (xs.foldlM f b) := by
  induction xs generalizing b with
  | nil => exact pure b
  | cons x xs ih =>
    rw [List.foldlM_cons]
    refine (hf x List.mem_cons_self b h0).bind fun b' hb' => ?_
    exact ih (hkeeps x List.mem_cons_self b h0 b' hb')
      (fun y hy => hkeeps y (List.mem_cons_of_mem x hy))
      fun y hy => hf y (List.mem_cons_of_mem x hy)

end Breaks

end ZoneSkims
