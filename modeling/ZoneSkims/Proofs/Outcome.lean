import Mathlib.Data.List.Forall2
import Mathlib.Data.List.Perm.Basic
import ZoneSkims.Outcome

/-!
# Results of calculations

Two readings of a property of results. `Returns x P` says that `x` ends in a result, and that `P`
holds of it. `Ok x P` says that `P` holds of every result, and leaves faults and breaches open.

* `Returns.foldlM`, `Ok.foldlM`: an invariant over the elements that a fold has gone through.
* `Returns.lift`: a calculation without faults of its own inside one with faults.
* `mapM_eq_ok_iff`: a sequence of calculations, one for each element of a list.
* `exists_mapM`: sequences that follow each other.
* `Paired`: two calculations that both fail or both succeed, with related results.
* `map_foldlM`, `map_mapM`: a map of their results goes through folds and sequences.
* `map_foldl_mapM`: a fold over the results of a sequence.
* `foldlM_eq_of_perm`, `exists_mapM_of_perm`: what the order of the elements changes.
-/

namespace ZoneSkims

variable {ε δ α β γ : Type}

/-- `x` ends in a result, and the result satisfies `P`. -/
def Returns (x : Except ε α) (P : α → Prop) : Prop := ∃ a, x = .ok a ∧ P a

/-- Every result of `x` satisfies `P`. -/
def Ok (x : Except ε α) (P : α → Prop) : Prop := ∀ a, x = .ok a → P a

/-- A sequence of two calculations ends in a result when both do. -/
theorem bind_eq_ok {x : Except ε α} {f : α → Except ε β} {b : β} :
    x >>= f = .ok b ↔ ∃ a, x = .ok a ∧ f a = .ok b := by
  cases x with
  | error e => simp [bind, Except.bind]
  | ok a => simp [bind, Except.bind]

/-- A breach-only calculation has the same results where faults are possible. -/
theorem lift_eq_ok {x : Checked α} {a : α} : (liftM x : Outcome ε α) = .ok a ↔ x = .ok a := by
  cases x with
  | error b => constructor <;> intro h <;> cases h
  | ok b => constructor <;> intro h <;> cases h <;> rfl

/-- A calculation has the same results when its faults are restated. -/
theorem mapError_eq_ok_iff {f : ε → δ} {x : Except ε α} {a : α} :
    x.mapError f = .ok a ↔ x = .ok a := by
  cases x with
  | error e => constructor <;> intro h <;> cases h
  | ok b => constructor <;> intro h <;> cases h <;> rfl

theorem exists_of_isSome {x : Except ε α} (h : x.toOption.isSome = true) : ∃ a, x = .ok a := by
  cases x with
  | error e => cases h
  | ok a => exact ⟨a, rfl⟩

theorem exists_of_any {x : Except ε α} {p : α → Prop} [DecidablePred p]
    (h : (x.toOption.any fun a => decide (p a)) = true) : ∃ a, x = .ok a ∧ p a := by
  cases x with
  | error e => cases h
  | ok a => exact ⟨a, rfl, of_decide_eq_true h⟩

/-! ## Total correctness -/

namespace Returns

theorem pure {P : α → Prop} {a : α} (h : P a) : Returns (pure a : Except ε α) P := ⟨a, rfl, h⟩

theorem bind {x : Except ε α} {f : α → Except ε β} {Q : α → Prop} {P : β → Prop}
    (hx : Returns x Q) (hf : ∀ a, Q a → Returns (f a) P) : Returns (x >>= f) P := by
  obtain ⟨a, rfl, ha⟩ := hx
  exact hf a ha

theorem map {x : Except ε α} {f : α → β} {P : β → Prop} (hx : Returns x fun a => P (f a)) :
    Returns (f <$> x) P := by
  obtain ⟨a, rfl, ha⟩ := hx
  exact ⟨f a, rfl, ha⟩

theorem mono {x : Except ε α} {P Q : α → Prop} (h : Returns x P) (hPQ : ∀ a, P a → Q a) :
    Returns x Q := by
  obtain ⟨a, rfl, ha⟩ := h
  exact ⟨a, rfl, hPQ a ha⟩

theorem of_eq {x : Except ε α} {P : α → Prop} {a : α} (h : x = .ok a) (ha : P a) : Returns x P :=
  ⟨a, h, ha⟩

/-- An invariant of a fold, over the elements that it has gone through. -/
theorem foldlM {xs : List α} {f : β → α → Except ε β} {b : β} (I : List α → β → Prop)
    (h0 : I [] b)
    (hf : ∀ done x rest b, xs = done ++ x :: rest → I done b →
      Returns (f b x) fun b' => I (done ++ [x]) b') :
    Returns (xs.foldlM f b) (I xs) := by
  -- The elements still to come shrink while the invariant moves to the others.
  have aux : ∀ rest done b, xs = done ++ rest → I done b → Returns (rest.foldlM f b) (I xs) := by
    intro rest
    induction rest with
    | nil =>
      intro done b hxs hI
      rw [List.append_nil] at hxs
      subst hxs
      exact Returns.pure hI
    | cons x rest ih =>
      intro done b hxs hI
      rw [List.foldlM_cons]
      refine Returns.bind (hf done x rest b hxs hI) fun b' hI' => ?_
      exact ih (done ++ [x]) b' (by rw [hxs, List.append_assoc]; rfl) hI'
  exact aux xs [] b rfl h0

theorem mapM {xs : List α} {f : α → Except ε β} {Q : α → β → Prop}
    (hf : ∀ x ∈ xs, Returns (f x) (Q x)) :
    Returns (xs.mapM f) fun ys =>
      (∀ y ∈ ys, ∃ x ∈ xs, Q x y) ∧ ∀ x ∈ xs, ∃ y ∈ ys, Q x y := by
  induction xs with
  | nil => exact Returns.pure (by simp)
  | cons x xs ih =>
    rw [List.mapM_cons]
    refine Returns.bind (hf x List.mem_cons_self) fun y hy => ?_
    refine Returns.bind (ih fun x' hx' => hf x' (List.mem_cons_of_mem _ hx')) fun ys hys => ?_
    refine Returns.pure ⟨fun y' hy' => ?_, fun x' hx' => ?_⟩
    · rcases List.mem_cons.mp hy' with rfl | hy'
      · exact ⟨x, List.mem_cons_self, hy⟩
      · obtain ⟨x', hx', hQ⟩ := hys.1 y' hy'
        exact ⟨x', List.mem_cons_of_mem _ hx', hQ⟩
    · rcases List.mem_cons.mp hx' with rfl | hx'
      · exact ⟨y, List.mem_cons_self, hy⟩
      · obtain ⟨y', hy', hQ⟩ := hys.2 x' hx'
        exact ⟨y', List.mem_cons_of_mem _ hy', hQ⟩

/-- A breach-only calculation goes through unchanged where faults are possible. -/
theorem lift {x : Checked α} {P : α → Prop} (h : Returns x P) :
    Returns (liftM x : Outcome ε α) P := by
  obtain ⟨a, rfl, ha⟩ := h
  exact ⟨a, rfl, ha⟩

theorem fetch {xs : Array α} {i : Nat} (h : i < xs.size) :
    Returns (fetch xs i) fun x => xs[i]? = some x :=
  ⟨xs[i], fetch_of_lt h, Array.getElem?_eq_getElem h⟩

end Returns

/-! ## Partial correctness -/

namespace Ok

theorem pure {P : α → Prop} {a : α} (h : P a) : Ok (pure a : Except ε α) P := by
  intro b hb
  cases hb
  exact h

theorem error {P : α → Prop} (e : ε) : Ok (.error e : Except ε α) P := by
  intro b hb
  cases hb

theorem bind {x : Except ε α} {f : α → Except ε β} {Q : α → Prop} {P : β → Prop}
    (hx : Ok x Q) (hf : ∀ a, Q a → Ok (f a) P) : Ok (x >>= f) P := by
  intro b hb
  cases h : x with
  | error e => rw [h] at hb; cases hb
  | ok a => rw [h] at hb; exact hf a (hx a h) b hb

theorem mono {x : Except ε α} {P Q : α → Prop} (h : Ok x P) (hPQ : ∀ a, P a → Q a) : Ok x Q :=
  fun a ha => hPQ a (h a ha)

/-- Nothing has to be known of a result. -/
protected theorem trivial (x : Except ε α) : Ok x fun _ => True := fun _ _ => True.intro

/-- What is known of a result is that it is one. -/
theorem self (x : Except ε α) : Ok x fun a => x = .ok a := fun _ h => h

/-- An invariant of a fold, over the elements that it has gone through. -/
theorem foldlM {xs : List α} {f : β → α → Except ε β} {b : β} (I : List α → β → Prop)
    (h0 : I [] b)
    (hf : ∀ done x rest b, xs = done ++ x :: rest → I done b →
      Ok (f b x) fun b' => I (done ++ [x]) b') :
    Ok (xs.foldlM f b) (I xs) := by
  have aux : ∀ rest done b, xs = done ++ rest → I done b → Ok (rest.foldlM f b) (I xs) := by
    intro rest
    induction rest with
    | nil =>
      intro done b hxs hI
      rw [List.append_nil] at hxs
      subst hxs
      exact Ok.pure hI
    | cons x rest ih =>
      intro done b hxs hI
      rw [List.foldlM_cons]
      refine Ok.bind (hf done x rest b hxs hI) fun b' hI' => ?_
      exact ih (done ++ [x]) b' (by rw [hxs, List.append_assoc]; rfl) hI'
  exact aux xs [] b rfl h0

/-- A property that every step of a fold keeps. -/
theorem foldlM_keeps {xs : List α} {f : β → α → Except ε β} {b : β} {P : β → Prop} (h0 : P b)
    (hf : ∀ x ∈ xs, ∀ b, P b → Ok (f b x) P) : Ok (xs.foldlM f b) P :=
  foldlM (fun _ => P) h0 fun _ x _ b hxs hb => hf x (by simp [hxs]) b hb

theorem lift {x : Checked α} {P : α → Prop} (h : Ok x P) : Ok (liftM x : Outcome ε α) P := by
  intro a ha
  cases x with
  | error e => cases ha
  | ok b => cases ha; exact h _ rfl

theorem fetch (xs : Array α) (i : Nat) : Ok (fetch xs i) fun x => xs[i]? = some x :=
  fun _ h => fetch_eq_ok.mp h

end Ok

/-- A calculation that ends in a result of which every result has a property ends in one with it. -/
theorem Returns.of_ok {x : Except ε α} {P Q : α → Prop} (hx : Returns x Q) (h : Ok x P) :
    Returns x P := by
  obtain ⟨a, ha, -⟩ := hx
  exact ⟨a, ha, h a ha⟩

/-! ## Sequences -/

/-- A sequence of calculations succeeds when all of them do. -/
theorem mapM_eq_ok_iff {xs : List α} {f : α → Except ε β} {ys : List β} :
    xs.mapM f = .ok ys ↔ List.Forall₂ (fun x y => f x = .ok y) xs ys := by
  induction xs generalizing ys with
  | nil =>
    rw [List.forall₂_nil_left_iff]
    exact ⟨fun h => by cases h; rfl, fun h => by rw [h]; rfl⟩
  | cons x xs ih =>
    rw [List.mapM_cons, bind_eq_ok, List.forall₂_cons_left_iff]
    constructor
    · rintro ⟨y, hy, h⟩
      obtain ⟨ys', hys', h⟩ := bind_eq_ok.mp h
      cases h
      exact ⟨y, ys', hy, ih.mp hys', rfl⟩
    · rintro ⟨y, ys', hy, hys', rfl⟩
      exact ⟨y, hy, bind_eq_ok.mpr ⟨ys', ih.mpr hys', rfl⟩⟩

/-- Each calculation of a sequence that succeeds has its result there. -/
theorem exists_of_mapM_eq_ok {xs : List α} {f : α → Except ε β} {ys : List β}
    (h : xs.mapM f = .ok ys) {x : α} (hx : x ∈ xs) : ∃ y ∈ ys, f x = .ok y := by
  have hall := mapM_eq_ok_iff.mp h
  obtain ⟨i, hi, rfl⟩ := List.getElem_of_mem hx
  exact ⟨_, List.getElem_mem (hall.length_eq ▸ hi), hall.get hi (hall.length_eq ▸ hi)⟩

theorem mem_iff_of_mapM_eq_ok {xs : List α} {f : α → Except ε β} {ys : List β}
    (h : xs.mapM f = .ok ys) {y : β} : y ∈ ys ↔ ∃ x ∈ xs, f x = .ok y := by
  constructor
  · intro hy
    have hall := mapM_eq_ok_iff.mp h
    obtain ⟨i, hi, rfl⟩ := List.getElem_of_mem hy
    exact ⟨_, List.getElem_mem (hall.length_eq ▸ hi), hall.get (hall.length_eq ▸ hi) hi⟩
  · rintro ⟨x, hx, hy⟩
    obtain ⟨y', hmem, hy'⟩ := exists_of_mapM_eq_ok h hx
    cases hy.symm.trans hy'
    exact hmem

theorem mapM_eq_ok {xs : List α} {f : α → Except ε β} {g : α → β}
    (h : ∀ x ∈ xs, f x = .ok (g x)) : xs.mapM f = .ok (xs.map g) := by
  rw [mapM_eq_ok_iff, List.forall₂_map_right_iff, List.forall₂_same]
  exact h

/-- The results of a sequence of calculations stand at their places. -/
theorem eq_ok_of_mapM_array {xs : Array α} {ys : Array β} {f : α → Except ε β}
    (h : xs.mapM f = .ok ys) {i : Nat} {x : α} {y : β} (hx : xs[i]? = some x)
    (hy : ys[i]? = some y) : f x = .ok y := by
  rw [Array.mapM_eq_mapM_toList, map_eq_pure_bind, bind_eq_ok] at h
  obtain ⟨found, hfound, hsame⟩ := h
  cases hsame
  have hall := mapM_eq_ok_iff.mp hfound
  rw [← Array.getElem?_toList] at hx
  obtain ⟨hi, rfl⟩ := List.getElem?_eq_some_iff.mp hx
  obtain ⟨hi', rfl⟩ := List.getElem?_eq_some_iff.mp
    ((List.getElem?_toArray (i := i)).symm.trans hy)
  exact hall.get hi hi'

/-- A sequence in which all calculations fail in one way. -/
theorem mapM_eq_ite {xs : List α} {f : α → Except ε β} {g : α → β} {p : α → Bool} {e : ε}
    (h : ∀ x ∈ xs, f x = if p x then .ok (g x) else .error e) :
    xs.mapM f = if xs.all p then .ok (xs.map g) else .error e := by
  induction xs with
  | nil => rfl
  | cons x xs ih =>
    rw [List.mapM_cons, h x List.mem_cons_self, ih fun y hy => h y (List.mem_cons_of_mem _ hy),
      List.all_cons]
    cases p x with
    | false => rfl
    | true => cases xs.all p <;> rfl

theorem Ok.mapM {xs : List α} {f : α → Except ε β} {Q : β → Prop}
    (hf : ∀ x ∈ xs, Ok (f x) Q) :
    Ok (xs.mapM f) fun ys => ys.length = xs.length ∧ ∀ y ∈ ys, Q y := by
  intro ys h
  refine ⟨(mapM_eq_ok_iff.mp h).length_eq.symm, fun y hy => ?_⟩
  obtain ⟨x, hx, hy⟩ := (mem_iff_of_mapM_eq_ok h).mp hy
  exact hf x hx y hy

theorem Ok.mapM_flatten {xs : List α} {f : α → Except ε (List β)} {Q : β → Prop}
    (hf : ∀ x ∈ xs, Ok (f x) fun ys => ∀ y ∈ ys, Q y) :
    Ok (xs.mapM f) fun lists => ∀ y ∈ lists.flatten, Q y := by
  refine (Ok.mapM hf).mono fun lists ⟨_, hlists⟩ y hy => ?_
  obtain ⟨ys, hys, hy⟩ := List.mem_flatten.mp hy
  exact hlists ys hys y hy

/-! ## Two calculations side by side -/

section Paired

variable {ε' : Type}

/-- Both calculations fail, with related failures, or both succeed, with related results. -/
inductive Paired (E : ε → ε' → Prop) (S : α → β → Prop) : Except ε α → Except ε' β → Prop
  | error {e : ε} {e' : ε'} : E e e' → Paired E S (.error e) (.error e')
  | ok {a : α} {b : β} : S a b → Paired E S (.ok a) (.ok b)

namespace Paired

variable {E : ε → ε' → Prop} {S : α → β → Prop}

theorem self (x : Except ε α) : Paired Eq Eq x x := by
  cases x with
  | error e => exact .error rfl
  | ok a => exact .ok rfl

theorem bind {T : γ → δ → Prop} {x : Except ε α} {y : Except ε' β} {f : α → Except ε γ}
    {g : β → Except ε' δ} (h : Paired E S x y) (hnext : ∀ a b, S a b → Paired E T (f a) (g b)) :
    Paired E T (x >>= f) (y >>= g) := by
  cases h with
  | error he => exact .error he
  | ok hab => exact hnext _ _ hab

theorem mono {T : α → β → Prop} {x : Except ε α} {y : Except ε' β} (h : Paired E S x y)
    (hST : ∀ a b, S a b → T a b) : Paired E T x y := by
  cases h with
  | error he => exact .error he
  | ok hab => exact .ok (hST _ _ hab)

theorem exists_ok {a : α} {y : Except ε' β} (h : Paired E S (.ok a) y) :
    ∃ b, y = .ok b ∧ S a b := by
  cases h with
  | ok hab => exact ⟨_, rfl, hab⟩

/-- Folds over one list whose steps end alike end alike. -/
theorem foldlM {xs : List γ} {f : α → γ → Except ε α} {g : β → γ → Except ε' β}
    (hstep : ∀ x ∈ xs, ∀ a b, S a b → Paired E S (f a x) (g b x)) {a : α} {b : β} (h : S a b) :
    Paired E S (xs.foldlM f a) (xs.foldlM g b) := by
  induction xs generalizing a b with
  | nil => exact .ok h
  | cons x xs ih =>
    rw [List.foldlM_cons, List.foldlM_cons]
    refine (hstep x List.mem_cons_self a b h).bind fun a' b' h' => ?_
    exact ih (fun y hy => hstep y (List.mem_cons_of_mem x hy)) h'

end Paired

end Paired

/-! ## Calculations that a map carries over -/

theorem fetch_map (f : α → β) (xs : Array α) (i : Nat) : fetch (xs.map f) i = f <$> fetch xs i := by
  unfold fetch
  rw [Array.getElem?_map]
  cases xs[i]? <;> rfl

/-- A fold whose steps are carried over is carried over as a whole. -/
theorem map_foldlM {F : β → γ} {f : β → α → Except ε β} {g : γ → α → Except ε γ} (xs : List α)
    (h : ∀ x ∈ xs, ∀ b, F <$> f b x = g (F b) x) (b : β) :
    F <$> xs.foldlM f b = xs.foldlM g (F b) := by
  induction xs generalizing b with
  | nil => rfl
  | cons x xs ih =>
    rw [List.foldlM_cons, List.foldlM_cons, ← h x List.mem_cons_self b, map_bind, bind_map_left]
    exact bind_congr fun b' => ih (fun y hy => h y (List.mem_cons_of_mem x hy)) b'

theorem map_mapM {F : β → γ} {f : α → Except ε β} {g : α → Except ε γ} (xs : List α)
    (h : ∀ x ∈ xs, F <$> f x = g x) : List.map F <$> xs.mapM f = xs.mapM g := by
  induction xs with
  | nil => rfl
  | cons x xs ih =>
    rw [List.mapM_cons, List.mapM_cons, ← h x List.mem_cons_self,
      ← ih fun y hy => h y (List.mem_cons_of_mem x hy)]
    simp only [map_bind, bind_map_left, map_pure, List.map_cons]

/-- Results that are put together in the end are put together one by one. -/
theorem map_foldl_mapM {f : α → Except ε β} {g : γ → β → γ} (xs : List α) (c : γ) :
    (fun ys => ys.foldl g c) <$> xs.mapM f = xs.foldlM (fun c x => g c <$> f x) c := by
  induction xs generalizing c with
  | nil => rfl
  | cons x xs ih =>
    rw [List.foldlM_cons, List.mapM_cons, bind_map_left, map_bind]
    refine bind_congr fun y => ?_
    rw [← ih, map_bind, map_eq_pure_bind]
    rfl

/-! ## The order of the elements -/

/-- A fold whose steps can be exchanged does not depend on the order of the elements. -/
theorem foldlM_eq_of_perm {xs ys : List α} {f : β → α → Except ε β} (h : xs.Perm ys)
    (hcomm : ∀ x ∈ xs, ∀ y ∈ xs, ∀ b,
      (f b x >>= fun b' => f b' y) = (f b y >>= fun b' => f b' x)) (b : β) :
    xs.foldlM f b = ys.foldlM f b := by
  rw [List.foldlM_eq_foldl, List.foldlM_eq_foldl]
  refine h.foldl_eq' (fun x hx y hy z => ?_) _
  rw [bind_assoc, bind_assoc]
  exact bind_congr (hcomm x hx y hy)

/-- A sequence of calculations in another order has the results in another order. -/
theorem exists_mapM_of_perm {xs xs' : List α} {f : α → Except ε β} {ys : List β}
    (h : xs.Perm xs') (hys : xs.mapM f = .ok ys) : ∃ ys', xs'.mapM f = .ok ys' ∧ ys.Perm ys' := by
  have hall : Relation.Comp List.Perm (List.Forall₂ fun x y => f x = .ok y) xs' ys :=
    ⟨xs, h.symm, mapM_eq_ok_iff.mp hys⟩
  rw [← List.forall₂_comp_perm_eq_perm_comp_forall₂] at hall
  obtain ⟨ys', hys', hperm⟩ := hall
  exact ⟨ys', mapM_eq_ok_iff.mpr hys', hperm.symm⟩

end ZoneSkims
