import ZoneSkims.Proofs.Outcome

/-!
# Work that is divided

Some calculations consist of independent pieces of work. Such a calculation succeeds when every
piece does, its value does not depend on the order of the pieces, and its failure is that of a
piece.

* `Performs`: a calculation does the work of a list of pieces.
* `Performs.bind`, `Performs.foldlM`: one calculation after the other.
* `Performs.andThen`: two passes over the same pieces.
-/

namespace ZoneSkims

variable {ε α β δ ζ : Type}

/-- `x` does the work of all pieces: it ends in `value` when they succeed, and fails like one of
them otherwise. -/
structure Performs (work : Nat → Except ε δ) (pieces : List Nat) (x : Except ε α) (value : α) :
    Prop where
  succeeds : (∀ piece ∈ pieces, ∃ d, work piece = .ok d) → x = .ok value
  fails : ∀ piece ∈ pieces, ∀ e, work piece = .error e →
    ∃ other ∈ pieces, ∃ e', work other = .error e' ∧ x = .error e'

namespace Performs

variable {work : Nat → Except ε δ} {pieces more : List Nat} {x : Except ε α} {a : α}

theorem pure (work : Nat → Except ε δ) (a : α) :
    Performs work [] (pure a : Except ε α) a where
  succeeds _ := rfl
  fails _ h := absurd h List.not_mem_nil

theorem single {i : Nat} (hok : ∀ d, work i = .ok d → x = .ok a)
    (herr : ∀ e, work i = .error e → x = .error e) : Performs work [i] x a where
  succeeds hwork := by
    obtain ⟨d, hd⟩ := hwork i List.mem_cons_self
    exact hok d hd
  fails j hj e he := by
    obtain rfl := List.mem_singleton.mp hj
    exact ⟨j, hj, e, he, herr e he⟩

/-- What a piece gives does not matter, only whether it succeeds. -/
theorem map_work (h : Performs work pieces x a) (g : δ → ζ) :
    Performs (fun i => g <$> work i) pieces x a where
  succeeds hwork := h.succeeds fun i hi => by
    obtain ⟨z, hz⟩ := hwork i hi
    cases hw : work i with
    | ok d => exact ⟨d, rfl⟩
    | error e => rw [hw] at hz; cases hz
  fails i hi e he := by
    have hw : work i = .error e := by
      cases hw : work i with
      | ok d => rw [hw] at he; cases he
      | error e' => rw [hw] at he; cases he; rfl
    obtain ⟨j, hj, e', hw', hx⟩ := h.fails i hi e hw
    exact ⟨j, hj, e', by rw [hw']; rfl, hx⟩

/-- Only which pieces there are matters. -/
theorem of_mem_iff (h : Performs work pieces x a) (hmem : ∀ i, i ∈ pieces ↔ i ∈ more) :
    Performs work more x a where
  succeeds hwork := h.succeeds fun i hi => hwork i ((hmem i).mp hi)
  fails i hi e he := by
    obtain ⟨other, hother, hfail⟩ := h.fails i ((hmem i).mpr hi) e he
    exact ⟨other, (hmem other).mp hother, hfail⟩

/-- Either all pieces succeed or one of them fails, and then so does the calculation. -/
theorem cases (h : Performs work pieces x a) :
    ((∀ i ∈ pieces, ∃ d, work i = .ok d) ∧ x = .ok a) ∨
      ∃ i ∈ pieces, ∃ e, work i = .error e ∧ x = .error e := by
  by_cases hwork : ∀ i ∈ pieces, ∃ d, work i = .ok d
  · exact .inl ⟨hwork, h.succeeds hwork⟩
  · simp only [Classical.not_forall] at hwork
    obtain ⟨i, hi, hno⟩ := hwork
    cases hw : work i with
    | ok d => exact absurd ⟨d, hw⟩ hno
    | error e => exact .inr (h.fails i hi e hw)

/-- The calculation fails exactly when a piece does. -/
theorem fails_iff (h : Performs work pieces x a) :
    (∃ e, x = .error e) ↔ ∃ i ∈ pieces, ∃ e, work i = .error e := by
  constructor
  · rintro ⟨e, hx⟩
    rcases h.cases with ⟨-, hok⟩ | ⟨i, hi, e', hw, -⟩
    · rw [hok] at hx
      cases hx
    · exact ⟨i, hi, e', hw⟩
  · rintro ⟨i, hi, e, hw⟩
    obtain ⟨-, -, e', -, hx⟩ := h.fails i hi e hw
    exact ⟨e', hx⟩

/-- When one piece alone fails, the calculation fails like it. -/
theorem error_of_only (h : Performs work pieces x a) {i : Nat} {e : ε} (hi : i ∈ pieces)
    (hw : work i = .error e) (honly : ∀ j ∈ pieces, j ≠ i → ∃ d, work j = .ok d) :
    x = .error e := by
  obtain ⟨j, hj, e', hwj, hx⟩ := h.fails i hi e hw
  by_cases hji : j = i
  · subst hji
    rw [hw] at hwj
    cases hwj
    exact hx
  · obtain ⟨d, hd⟩ := honly j hj hji
    rw [hd] at hwj
    cases hwj

/-- Different pieces, one calculation after the other. -/
theorem bind {f : α → Except ε β} {b : β} (hx : Performs work pieces x a)
    (hf : Performs work more (f a) b) : Performs work (pieces ++ more) (x >>= f) b where
  succeeds hwork := by
    rw [hx.succeeds fun i hi => hwork i (List.mem_append_left _ hi)]
    exact hf.succeeds fun i hi => hwork i (List.mem_append_right _ hi)
  fails i hi e he := by
    rcases hx.cases with ⟨hwork, hok⟩ | ⟨j, hj, e', hw, herr⟩
    · have hi' : i ∈ more := by
        refine (List.mem_append.mp hi).resolve_left fun hpieces => ?_
        obtain ⟨d, hd⟩ := hwork i hpieces
        rw [hd] at he
        cases he
      obtain ⟨j, hj, e', hw, herr⟩ := hf.fails i hi' e he
      exact ⟨j, List.mem_append_right _ hj, e', hw, by rw [hok]; exact herr⟩
    · exact ⟨j, List.mem_append_left _ hj, e', hw, by rw [herr]; rfl⟩

theorem map (hx : Performs work pieces x a) (g : α → β) :
    Performs work pieces (do let a ← x; return g a) (g a) := by
  have hg := hx.bind (f := fun a => Pure.pure (g a)) (pure work (g a))
  rwa [List.append_nil] at hg

/-- Steps that each do the work of some pieces, where `state` is known after every step. -/
theorem foldlM {steps : List ζ} {f : α → ζ → Except ε α} (piecesOf : ζ → List Nat)
    (state : List ζ → α)
    (hf : ∀ done step rest, steps = done ++ step :: rest →
      Performs work (piecesOf step) (f (state done) step) (state (done ++ [step]))) :
    Performs work (steps.flatMap piecesOf) (steps.foldlM f (state [])) (state steps) := by
  have aux : ∀ rest done, steps = done ++ rest →
      Performs work (rest.flatMap piecesOf) (rest.foldlM f (state done)) (state steps) := by
    intro rest
    induction rest with
    | nil =>
      intro done hsteps
      rw [hsteps, List.append_nil]
      exact pure work _
    | cons step rest ih =>
      intro done hsteps
      rw [List.foldlM_cons, List.flatMap_cons]
      refine (hf done step rest hsteps).bind (ih (done ++ [step]) ?_)
      rw [hsteps, List.append_assoc, List.singleton_append]
  exact aux steps [] rfl

/-- Two passes over the same pieces. A piece goes on when its part of the first pass is done. -/
theorem andThen {η : Type} {next : Nat → Except ε ζ} {f : α → Except ε β} {b : β}
    (hx : Performs work pieces x a) (hf : Performs next pieces (f a) b) (g : δ → ζ → η) :
    Performs (fun i => do let d ← work i; let z ← next i; return g d z) pieces (x >>= f) b where
  succeeds hboth := by
    have hwork : ∀ i ∈ pieces, ∃ d, work i = .ok d := fun i hi => by
      obtain ⟨z, hz⟩ := hboth i hi
      obtain ⟨d, hd, -⟩ := bind_eq_ok.mp hz
      exact ⟨d, hd⟩
    have hnext : ∀ i ∈ pieces, ∃ z, next i = .ok z := fun i hi => by
      obtain ⟨z, hz⟩ := hboth i hi
      obtain ⟨d, -, hd⟩ := bind_eq_ok.mp hz
      obtain ⟨z, hz, -⟩ := bind_eq_ok.mp hd
      exact ⟨z, hz⟩
    rw [hx.succeeds hwork]
    exact hf.succeeds hnext
  fails i hi e he := by
    rcases hx.cases with ⟨hwork, hok⟩ | ⟨j, hj, e', hw, herr⟩
    · obtain ⟨d, hd⟩ := hwork i hi
      have hi' : next i = .error e := by
        rw [hd] at he
        cases hn : next i with
        | ok z => rw [hn] at he; cases he
        | error e' =>
          rw [hn] at he
          injection he with he
          rw [he]
      obtain ⟨j, hj, e', hw, herr⟩ := hf.fails i hi e hi'
      obtain ⟨d', hd'⟩ := hwork j hj
      exact ⟨j, hj, e', by rw [hd', hw]; rfl, by rw [hok]; exact herr⟩
    · exact ⟨j, hj, e', by rw [hw]; rfl, by rw [herr]; rfl⟩

end Performs

end ZoneSkims
