import Mathlib.Data.List.Forall2

/-!
**Computations that may fail.**

A computation that is made of others succeeds exactly when its parts do.  The lemmas here take
results apart along the ways in which computations are put together.

Main results:

* `WeightedSat.bind_eq_ok_iff` — one computation after another;
* `WeightedSat.mapM_eq_ok_iff` — one computation for each element of a list;
* `WeightedSat.foldlM_cons_eq_ok_iff` — a run, taken apart behind its first step.
-/

set_option relaxedAutoImplicit false
set_option autoImplicit false

namespace WeightedSat

variable {ε α β : Type}

theorem toOption_eq_some_iff {x : Except ε α} {a : α} : x.toOption = some a ↔ x = .ok a := by
  cases x with
  | error e => simp [Except.toOption]
  | ok b => simp [Except.toOption]

/-- One computation after another succeeds exactly when both do. -/
theorem bind_eq_ok_iff {x : Except ε α} {f : α → Except ε β} {b : β} :
    x >>= f = .ok b ↔ ∃ a, x = .ok a ∧ f a = .ok b := by
  cases x with
  | error e => simp [bind, Except.bind]
  | ok a => simp [bind, Except.bind]

/-- **One computation for each element** succeeds exactly when all of them do. -/
theorem mapM_eq_ok_iff {f : α → Except ε β} {xs : List α} {ys : List β} :
    xs.mapM f = .ok ys ↔ List.Forall₂ (fun x y => f x = .ok y) xs ys := by
  induction xs generalizing ys with
  | nil => cases ys <;> simp [pure, Except.pure]
  | cons x xs ih =>
      rw [List.mapM_cons, bind_eq_ok_iff]
      constructor
      · rintro ⟨y, hy, h⟩
        obtain ⟨zs, hzs, h⟩ := bind_eq_ok_iff.1 h
        cases h
        exact .cons hy (ih.1 hzs)
      · intro h
        cases h with
        | cons hy hrest => exact ⟨_, hy, bind_eq_ok_iff.2 ⟨_, ih.2 hrest, rfl⟩⟩

theorem mapM_eq_some_iff {f : α → Option β} {xs : List α} {ys : List β} :
    xs.mapM f = some ys ↔ List.Forall₂ (fun x y => f x = some y) xs ys := by
  induction xs generalizing ys with
  | nil => cases ys <;> simp
  | cons x xs ih =>
      rw [List.mapM_cons, Option.bind_eq_bind, Option.bind_eq_some_iff]
      constructor
      · rintro ⟨y, hy, h⟩
        obtain ⟨zs, hzs, h⟩ := Option.bind_eq_some_iff.1 h
        cases h
        exact .cons hy (ih.1 hzs)
      · intro h
        cases h with
        | cons hy hrest => exact ⟨_, hy, Option.bind_eq_some_iff.2 ⟨_, ih.2 hrest, rfl⟩⟩

theorem mapM_eq_ok_map {f : α → Except ε β} {g : α → β} {xs : List α}
    (h : ∀ x ∈ xs, f x = .ok (g x)) : xs.mapM f = .ok (xs.map g) := by
  rw [mapM_eq_ok_iff, List.forall₂_map_right_iff, List.forall₂_same]
  exact h

/-- **A run succeeds** exactly when its first step does and the rest of the run from there. -/
theorem foldlM_cons_eq_ok_iff {f : β → α → Except ε β} {x : α} {xs : List α} {b d : β} :
    (x :: xs).foldlM f b = .ok d ↔ ∃ c, f b x = .ok c ∧ xs.foldlM f c = .ok d := by
  rw [List.foldlM_cons, bind_eq_ok_iff]

end WeightedSat
