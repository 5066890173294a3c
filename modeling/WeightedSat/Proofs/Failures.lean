import WeightedSat.Proofs.Results

/-!
**What computations fail with.**

A computation that is made of others fails with what its parts fail with.  So a property of the
failures of a whole follows from the same property of the failures of its parts, and of those parts
only that are reached.

Main definitions:

* `WeightedSat.FailsOnly` — **every failure of a computation has a property**.

Main results:

* `WeightedSat.FailsOnly.bind` — one computation after another;
* `WeightedSat.FailsOnly.mapM` — one computation for each element of a list;
* `WeightedSat.FailsOnly.foldlM` — **a run**, one step after another;
* `WeightedSat.foldlM_invariant` — what holds behind a run that does not fail.
-/

set_option relaxedAutoImplicit false
set_option autoImplicit false

namespace WeightedSat

variable {ε α β : Type} {P : ε → Prop}

/-- **Every failure of a computation has a property.** -/
def FailsOnly (P : ε → Prop) (x : Except ε α) : Prop :=
  ∀ e, x = .error e → P e

theorem failsOnly_ok (a : α) : FailsOnly P (.ok a : Except ε α) :=
  nofun

theorem failsOnly_error {e : ε} (h : P e) : FailsOnly P (.error e : Except ε α) := by
  rintro _ ⟨⟩
  exact h

/-- One computation after another fails as one of the two does. -/
theorem FailsOnly.bind {x : Except ε α} {f : α → Except ε β} (hx : FailsOnly P x)
    (hf : ∀ a, x = .ok a → FailsOnly P (f a)) : FailsOnly P (x >>= f) := by
  cases x with
  | error e => exact failsOnly_error (hx e rfl)
  | ok a => exact hf a rfl

/-- What stands behind a failure does not matter. -/
theorem failsOnly_error_bind {e : ε} (h : P e) (f : α → Except ε β) :
    FailsOnly P ((.error e : Except ε α) >>= f) :=
  failsOnly_error h

/-- One computation for each element fails as one of them does. -/
theorem FailsOnly.mapM {f : α → Except ε β} {xs : List α} (h : ∀ x ∈ xs, FailsOnly P (f x)) :
    FailsOnly P (xs.mapM f) := by
  induction xs with
  | nil => exact failsOnly_ok []
  | cons x xs ih =>
      obtain ⟨hx, hxs⟩ := List.forall_mem_cons.1 h
      rw [List.mapM_cons]
      exact hx.bind fun _ _ => (ih hxs).bind fun _ _ => failsOnly_ok _

/-- What every step of a run keeps holds behind it. -/
theorem foldlM_invariant {f : β → α → Except ε β} {I : β → Prop} {xs : List α}
    (hkeep : ∀ x ∈ xs, ∀ b c, I b → f b x = .ok c → I c) {b d : β} (hb : I b)
    (h : xs.foldlM f b = .ok d) : I d := by
  induction xs generalizing b with
  | nil =>
      cases h
      exact hb
  | cons x xs ih =>
      obtain ⟨c, hc, hrest⟩ := foldlM_cons_eq_ok_iff.1 h
      obtain ⟨hx, hxs⟩ := List.forall_mem_cons.1 hkeep
      exact ih hxs (hx b c hb hc) hrest

/-- **A run fails** as one of its steps does. -/
theorem FailsOnly.foldlM {f : β → α → Except ε β} {xs : List α}
    (h : ∀ x ∈ xs, ∀ b, FailsOnly P (f b x)) {b : β} : FailsOnly P (xs.foldlM f b) := by
  induction xs generalizing b with
  | nil => exact failsOnly_ok b
  | cons x xs ih =>
      obtain ⟨hx, hxs⟩ := List.forall_mem_cons.1 h
      rw [List.foldlM_cons]
      exact (hx b).bind fun _ _ => ih hxs

end WeightedSat
