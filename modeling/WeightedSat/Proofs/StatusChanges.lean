import WeightedSat.Proofs.Binary64.Order
import WeightedSat.Proofs.Differences

/-!
**The price of a flip is what changes its status.**

The price of a flip is computed before the flip is made, from one list of occurrences and from
counters that are zero or one.  Here it is compared with the flip itself: two states are looked at
side by side, clause by clause in the order of their numbers, and the weights of the clauses that
are satisfied in one and not in the other are added up.  Both give the same word.  Clauses that the
variable does not occur in are satisfied after the flip exactly when they were before.

Main definitions:

* `WeightedSat.Clause.change?` — what a change of the valuation contributes for one clause;
* `WeightedSat.Model.change?`, `WeightedSat.Model.changes` — **the changes of status** between two
  states, in the order of the clauses.

Main results:

* `WeightedSat.Clause.foldl_addChange` — only the clauses that change their status are added up;
* `WeightedSat.Model.Counts.changes_eq` — the changes of status, in terms of the active clauses;
* `WeightedSat.Model.Counts.isSatisfied_update_of_absent` — a clause without the name keeps its
  status;
* `WeightedSat.Model.costDifference_eq_changes` — **the price of a flip is the sum of the changes
  of status**.
-/

set_option relaxedAutoImplicit false
set_option autoImplicit false

namespace WeightedSat

namespace Clause

/-- What a change of the valuation contributes for one clause, if the clause changes its status. -/
def change? (before after : Nat → Bool) (c : Clause) : Option Float :=
  match c.isSatisfiedBy before, c.isSatisfiedBy after with
  | true, false => some c.weight
  | false, true => some (-c.weight)
  | _, _ => none

variable {before after : Nat → Bool}

/-- Taking a weight away is adding its negative. -/
theorem addChange_eq_elim (c : Clause) (price : Float) :
    c.addChange before after price = (c.change? before after).elim price (price + ·) := by
  rw [addChange, change?]
  cases c.isSatisfiedBy before with
  | true => cases c.isSatisfiedBy after <;> rfl
  | false =>
      cases c.isSatisfiedBy after with
      | true => exact Binary64.sub_eq_add_neg_word price c.weight
      | false => rfl

/-- **Only the clauses that change their status are added up.** -/
theorem foldl_addChange (clauses : List Clause) (price : Float) :
    clauses.foldl (addChange before after) price =
      (clauses.filterMap (change? before after)).foldl (· + ·) price := by
  rw [List.foldl_filterMap]
  refine List.foldl_ext _ _ _ ?_
  intro x c _
  rw [addChange_eq_elim]
  cases c.change? before after <;> rfl

end Clause

namespace Model

/-- What a clause contributes to the price of going from one state to another: its weight where it
is satisfied no more, the negative of its weight where it is satisfied now. -/
def change? (m : Model) (s t : State) (number : Nat) : Option Float :=
  match s.isSatisfied number, t.isSatisfied number, m.weight number with
  | .ok true, .ok false, .ok w => some w
  | .ok false, .ok true, .ok w => some (-w)
  | _, _, _ => none

/-- **The changes of status** between two states, in the order of the clauses. -/
def changes (m : Model) (s t : State) : List Float :=
  (List.range' 1 m.clauseCount).filterMap (m.change? s t)

variable {m : Model} {active clauses : List Clause} {s t : State} {value after : Nat → Bool}
  {k : Nat} {c : Clause}

/-- Whether a clause has a true literal can be read off the state. -/
theorem Counts.isSatisfied_eq_ok (hs : m.Counts active s) (hvalue : m.Agrees s value)
    (hk : active[k]? = some c) : s.isSatisfied (k + 1) = .ok (c.isSatisfiedBy value) := by
  have hcounter : s.counter (k + 1) = .ok (c.trueCount value) := by
    rw [State.counter, if_neg (Nat.succ_ne_zero k), hs.counter_succ value hvalue k c hk]
  have hpos : decide (0 < c.trueCount value) = decide (c.trueCount value ≠ 0) :=
    decide_eq_decide.2 Nat.pos_iff_ne_zero
  rw [Clause.isSatisfiedBy_eq_decide, ← hpos, State.isSatisfied, hcounter]
  rfl

/-- **The changes of status, in terms of the active clauses.** -/
theorem Counts.changes_eq (he : m.Encodes active) (hs : m.Counts active s)
    (hvalue : m.Agrees s value) (ht : m.Counts active t) (hafter : m.Agrees t after) :
    m.changes s t = active.filterMap (Clause.change? value after) := by
  -- both sides run over the clauses with their numbers
  have hnumbers : List.range' 1 m.clauseCount = (active.zipIdx 1).map Prod.snd := by
    rw [List.zipIdx_map_snd, he.clauseCount_eq]
  have hclauses : active.filterMap (Clause.change? value after) =
      ((active.zipIdx 1).map Prod.fst).filterMap (Clause.change? value after) := by
    rw [List.zipIdx_map_fst]
  rw [changes, hnumbers, hclauses, List.filterMap_map, List.filterMap_map]
  refine List.filterMap_congr ?_
  rintro ⟨c, number⟩ hc
  obtain ⟨hle, hk⟩ := List.mk_mem_zipIdx_iff_le_and_getElem?_sub.1 hc
  obtain ⟨k, rfl⟩ : ∃ k, number = k + 1 := ⟨number - 1, by omega⟩
  rw [Nat.add_sub_cancel] at hk
  simp only [Function.comp_apply, change?, Clause.change?, hs.isSatisfied_eq_ok hvalue hk,
    ht.isSatisfied_eq_ok hafter hk, he.weight_eq_ok hk]
  cases c.isSatisfiedBy value <;> cases c.isSatisfiedBy after <;> rfl

/-- **A clause without the name keeps its status** when the name changes its value. -/
theorem Counts.isSatisfied_update_of_absent (hs : m.Counts active s) (hvalue : m.Agrees s value)
    {name : Nat} {b : Bool} (ht : m.Counts active t)
    (hafter : m.Agrees t (Function.update value name b)) (hk : active[k]? = some c)
    (habsent : ∀ o ∈ occurrencesFrom 1 active name, o.clause ≠ k + 1) :
    s.isSatisfied (k + 1) = t.isSatisfied (k + 1) := by
  have hnone : c.polarities[name]? = none := by
    rw [Option.eq_none_iff_forall_ne_some]
    intro positive hp
    exact habsent _ (mem_occurrencesFrom hk hp) (Nat.add_comm 1 k)
  rw [hs.isSatisfied_eq_ok hvalue hk, ht.isSatisfied_eq_ok hafter hk,
    Clause.isSatisfiedBy_eq_decide, Clause.isSatisfiedBy_eq_decide,
    Clause.trueCount_update_of_absent hnone]

/-- **The price of a flip is the sum of the changes of status.**  In every reachable state, and for
every variable, the price of the flip is the very word that adding up, from zero on and in the order
of the clauses, gives for the clauses that are satisfied before the flip or after it but not both.
Whether a clause is satisfied is defined for every active clause, and is what its evaluation says;
a clause that is not in the list of occurrences of the variable keeps its status. -/
theorem costDifference_eq_changes (hm : m.Configured clauses) (hs : m.Reachable s) {i : Nat}
    (hi : i < m.variableCount) :
    ∃ t d os, m.flip s i = .ok t ∧ m.costDifference s i = .ok d ∧ m.affected i = .ok os ∧
      d = (m.changes s t).foldl (· + ·) 0.0 ∧
      ∀ number, 1 ≤ number → number ≤ m.clauseCount →
        ∃ c, (Encoding.activeClauses clauses)[number - 1]? = some c ∧
          m.weight number = .ok c.weight ∧
          s.isSatisfied number = .ok (c.isSatisfiedBy (m.valuation s)) ∧
          t.isSatisfied number = .ok (c.isSatisfiedBy (m.valuation t)) ∧
          ((∀ o ∈ os, o.clause ≠ number) → s.isSatisfied number = t.isSatisfied number) := by
  have he := hm.encodes
  have hcounts := hs.counts he
  have hvalue := he.agrees_valuation hcounts.assignment_size
  obtain ⟨name, after, t, hname, rfl, hflip, ht, hafter, hprice, -⟩ :=
    hcounts.flip_prices he hvalue hi
  rw [Clause.foldl_addChange, ← hcounts.changes_eq he hvalue ht hafter] at hprice
  refine ⟨t, _, _, hflip, hprice, he.affected_eq_ok hname, rfl, ?_⟩
  intro number hone hcount
  obtain ⟨k, rfl⟩ : ∃ k, number = k + 1 := ⟨number - 1, by omega⟩
  rw [he.clauseCount_eq] at hcount
  have hk := List.getElem?_eq_getElem (Nat.lt_of_succ_le hcount)
  exact ⟨_, hk, he.weight_eq_ok hk, hcounts.isSatisfied_eq_ok hvalue hk,
    ht.isSatisfied_eq_ok (he.agrees_valuation ht.assignment_size) hk,
    hcounts.isSatisfied_update_of_absent hvalue ht hafter hk⟩

/-- On three clauses, the first variable becomes true: the clause of weight three, which it leaves
without a true literal, is the only one that changes its status. -/
theorem costDifference_eq_changes_sample :
    ∃ s t d, sampleModel.start = .ok s ∧ sampleModel.flip s 0 = .ok t ∧
      sampleModel.costDifference s 0 = .ok d ∧ sampleModel.changes s t = [3.0] ∧
      d = (sampleModel.changes s t).foldl (· + ·) 0.0 := by
  have hs : sampleModel.start = .ok ⟨#[false, false, false], #[0, 1, 1]⟩ := rfl
  obtain ⟨t, d, os, hflip, hprice, -, hd, -⟩ :=
    costDifference_eq_changes sampleModel_configured (.start (.start hs)) (i := 0) (by decide)
  have ht : t = ⟨#[true, false, false], #[0, 2, 0]⟩ := Except.ok.inj (hflip.symm.trans rfl)
  exact ⟨_, t, d, hs, hflip, hprice, by rw [ht]; rfl, hd⟩

end Model

end WeightedSat
