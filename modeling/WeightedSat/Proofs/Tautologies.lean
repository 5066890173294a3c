import WeightedSat.Proofs.Encoding

/-!
**Clauses that are always true.**

A clause is left out of local search when it holds a literal beside its negation.  That is a test of
how the clause is written, and this module proves that it is exact: the clauses it finds are those
that every valuation satisfies.  Any other clause is left unsatisfied by a valuation that is read
off the clause: a name is true exactly where its negation occurs.

The test holds every literal against all others.  One pass through the literals that holds each
against those in front of it finds the same clauses, because of a literal and its negation one
comes after the other.

Main definitions:

* `WeightedSat.Clause.meetsNegation` — the test in one pass through the literals;
* `WeightedSat.Clause.falsifier` — **the valuation that makes every literal false**.

Main results:

* `WeightedSat.Clause.meetsNegation_eq_true_iff` — what the pass finds, whatever came before;
* `WeightedSat.Clause.eval_falsifier` — a clause that holds no literal beside its negation can be
  left unsatisfied;
* `WeightedSat.Clause.isTautology_iff_forall_isSatisfiedBy` — **the test is exact**;
* `WeightedSat.Encoding.mem_activeClauses_iff_exists_falsified` — the active clauses are those that
  can be left unsatisfied.
-/

set_option relaxedAutoImplicit false
set_option autoImplicit false

namespace WeightedSat

theorem Literal.negate_ne (l : Literal) : l.negate ≠ l := by
  intro h
  have hpositive := congrArg Literal.positive h
  simp [negate] at hpositive

namespace Clause

/-! ### One pass through the literals -/

/-- Goes through the literals, `seen` being those that came before, up to the first whose negation
came before. -/
def meetsNegation (seen : Std.TreeSet Literal) : List Literal → Bool
  | [] => false
  | l :: ls => if seen.contains l.negate then true else meetsNegation (seen.insert l) ls

/-- Literals meet their negations in a set with one more literal exactly where they do so in the set
or hold the negation of that literal. -/
theorem exists_negate_mem_insert_iff {seen : Std.TreeSet Literal} {l : Literal}
    {ls : List Literal} :
    (∃ k ∈ ls, k.negate ∈ seen.insert l) ↔ l.negate ∈ ls ∨ ∃ k ∈ ls, k.negate ∈ seen := by
  constructor
  · rintro ⟨k, hk, hneg⟩
    rcases Literal.mem_insert_iff.1 hneg with rfl | hneg
    · exact Or.inl (by rwa [Literal.negate_negate])
    · exact Or.inr ⟨k, hk, hneg⟩
  · rintro (hl | ⟨k, hk, hneg⟩)
    · exact ⟨l.negate, hl, Literal.mem_insert_iff.2 (Or.inl (Literal.negate_negate l))⟩
    · exact ⟨k, hk, Literal.mem_insert_iff.2 (Or.inr hneg)⟩

/-- A literal in front of others: the negations that meet are the old ones and its own. -/
theorem exists_negate_mem_cons_iff {l : Literal} {ls : List Literal} :
    (∃ k ∈ l :: ls, k.negate ∈ l :: ls) ↔ l.negate ∈ ls ∨ ∃ k ∈ ls, k.negate ∈ ls := by
  constructor
  · rintro ⟨k, hk, hneg⟩
    rcases List.mem_cons.1 hk with rfl | hk
    · exact Or.inl (List.mem_of_ne_of_mem (Literal.negate_ne k) hneg)
    · rcases List.mem_cons.1 hneg with rfl | hneg
      · exact Or.inl (by rwa [Literal.negate_negate])
      · exact Or.inr ⟨k, hk, hneg⟩
  · rintro (hl | ⟨k, hk, hneg⟩)
    · exact ⟨l, List.mem_cons_self, List.mem_cons_of_mem l hl⟩
    · exact ⟨k, List.mem_cons_of_mem l hk, List.mem_cons_of_mem l hneg⟩

/-- **What the pass finds**: a literal whose negation came before, or a literal and its negation
among those still to come, in either order and at any distance. -/
theorem meetsNegation_eq_true_iff {seen : Std.TreeSet Literal} {ls : List Literal} :
    meetsNegation seen ls = true ↔
      (∃ l ∈ ls, l.negate ∈ seen) ∨ ∃ l ∈ ls, l.negate ∈ ls := by
  induction ls generalizing seen with
  | nil => simp [meetsNegation]
  | cons l ls ih =>
      rw [meetsNegation, exists_negate_mem_cons_iff, List.exists_mem_cons_iff]
      by_cases hneg : l.negate ∈ seen
      · have hcontains : seen.contains l.negate = true := hneg
        simp [hneg, hcontains]
      · have hcontains : seen.contains l.negate = false := Bool.eq_false_iff.2 hneg
        -- the pass goes on with `l` among those that came before
        rw [hcontains, if_neg Bool.false_ne_true, ih, exists_negate_mem_insert_iff,
          or_iff_right hneg, or_assoc, or_left_comm]

/-- The pass from the first literal on is the test. -/
theorem meetsNegation_eq_isTautology (c : Clause) : meetsNegation ∅ c.literals = c.isTautology := by
  rw [Bool.eq_iff_iff, meetsNegation_eq_true_iff, isTautology_eq_true_iff]
  simp

/-! ### Valuations -/

/-- A clause is unsatisfied exactly when all its literals are false. -/
theorem isSatisfiedBy_eq_false_iff {c : Clause} {value : Nat → Bool} :
    c.isSatisfiedBy value = false ↔ ∀ l ∈ c.literals, l.eval (value l.name) = false := by
  simp [isSatisfiedBy]

/-- **A clause with a literal and its negation is satisfied by every valuation.** -/
theorem isSatisfiedBy_of_isTautology {c : Clause} (h : c.isTautology = true)
    (value : Nat → Bool) : c.isSatisfiedBy value = true := by
  obtain ⟨l, hl, hneg⟩ := (isTautology_eq_true_iff c).1 h
  rw [isSatisfiedBy, List.any_eq_true]
  cases heval : l.eval (value l.name) with
  | true => exact ⟨l, hl, heval⟩
  | false =>
      refine ⟨l.negate, hneg, ?_⟩
      rw [Literal.eval_negate, Literal.name_negate, heval, Bool.not_false]

/-- **The valuation that makes every literal false**, if any does: a name is true where its negation
occurs. -/
def falsifier (c : Clause) (name : Nat) : Bool :=
  decide (⟨name, false⟩ ∈ c.literals)

/-- A clause that holds no literal beside its negation is left unsatisfied. -/
theorem eval_falsifier {c : Clause} (hc : c.isTautology = false) {l : Literal}
    (hl : l ∈ c.literals) : l.eval (c.falsifier l.name) = false := by
  obtain ⟨name, positive⟩ := l
  cases positive with
  | false => simp [Literal.eval, falsifier, hl]
  | true =>
      have hneg : (⟨name, false⟩ : Literal) ∉ c.literals := by
        intro hneg
        have htrue : c.isTautology = true := (isTautology_eq_true_iff c).2 ⟨_, hl, hneg⟩
        rw [hc] at htrue
        cases htrue
      simp [Literal.eval, falsifier, hneg]

theorem exists_isSatisfiedBy_eq_false_iff {c : Clause} :
    (∃ value, c.isSatisfiedBy value = false) ↔ c.isTautology = false := by
  constructor
  · rintro ⟨value, hvalue⟩
    rw [Bool.eq_false_iff]
    intro htrue
    rw [isSatisfiedBy_of_isTautology htrue] at hvalue
    cases hvalue
  · intro hc
    exact ⟨c.falsifier, isSatisfiedBy_eq_false_iff.2 fun l hl => eval_falsifier hc hl⟩

/-- **The test for clauses that are always true is exact.**  It finds the clauses that every
valuation satisfies; every other clause has a valuation under which all its literals are false; and
it does not matter whether each literal is held against all others or only against those in front
of it. -/
theorem isTautology_iff_forall_isSatisfiedBy (c : Clause) :
    (c.isTautology = true ↔ ∀ value, c.isSatisfiedBy value = true) ∧
      (c.isTautology = false ↔
        ∃ value : Nat → Bool, ∀ l ∈ c.literals, l.eval (value l.name) = false) ∧
      meetsNegation ∅ c.literals = c.isTautology := by
  have hfalse : c.isTautology = false ↔
      ∃ value : Nat → Bool, ∀ l ∈ c.literals, l.eval (value l.name) = false := by
    simp only [← exists_isSatisfiedBy_eq_false_iff, isSatisfiedBy_eq_false_iff]
  refine ⟨⟨isSatisfiedBy_of_isTautology, ?_⟩, hfalse, meetsNegation_eq_isTautology c⟩
  intro hall
  rw [← Bool.not_eq_false, ← exists_isSatisfiedBy_eq_false_iff]
  rintro ⟨value, hvalue⟩
  rw [hall value] at hvalue
  cases hvalue

end Clause

/-- **The active clauses are those that some valuation leaves unsatisfied**: what is left out costs
nothing, and all that can cost something is kept. -/
theorem Encoding.mem_activeClauses_iff_exists_falsified {clauses : List Clause} {c : Clause} :
    c ∈ activeClauses clauses ↔ c ∈ clauses ∧ ∃ value, c.isSatisfiedBy value = false := by
  rw [mem_activeClauses, Clause.exists_isSatisfiedBy_eq_false_iff]

end WeightedSat
