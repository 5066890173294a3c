import WeightedSat.Proofs.Runs

/-!
**The price of a flip, clause by clause.**

The price of a flip is computed from the old counters, by looking for counters that are zero or
one.  This module shows what these tests find: a clause that is satisfied before the flip and not
after it adds its weight, one that is satisfied only after it takes its weight away, and all others
leave the price alone.  The additions are made in the order of the clauses, so the result is the
same number, bit for bit, as going through all active clauses.

Main definitions:

* `WeightedSat.Clause.addChange` — what a change of the valuation adds for one clause.

Main results:

* `WeightedSat.Model.addPrice_eq_ok` — the tests on one counter;
* `WeightedSat.Model.Counts.costDifference_eq` — **the price of a flip, in terms of the active
  clauses**;
* `WeightedSat.Model.Counts.flip_prices` — one flip with its price and that of the way back.
-/

set_option relaxedAutoImplicit false
set_option autoImplicit false

namespace WeightedSat

namespace Clause

/-- What a change of the valuation adds to a price: the weight of a clause that is satisfied no
more, less the weight of one that is satisfied now. -/
def addChange (before after : Nat → Bool) (price : Float) (c : Clause) : Float :=
  match c.isSatisfiedBy before, c.isSatisfiedBy after with
  | true, false => price + c.weight
  | false, true => price - c.weight
  | _, _ => price

variable {c : Clause} {value : Nat → Bool} {name : Nat}

theorem isSatisfiedBy_eq_decide (c : Clause) (value : Nat → Bool) :
    c.isSatisfiedBy value = decide (c.trueCount value ≠ 0) := by
  cases h : c.isSatisfiedBy value with
  | false => simp [trueCount_eq_zero_iff.2 h]
  | true =>
      have hne : c.trueCount value ≠ 0 := by
        rw [ne_eq, trueCount_eq_zero_iff, h]
        decide
      simp [hne]

/-- A name that does not occur adds nothing. -/
theorem addChange_of_absent (h : c.polarities[name]? = none) (b : Bool) (price : Float) :
    c.addChange value (Function.update value name b) price = price := by
  have hsame : c.isSatisfiedBy (Function.update value name b) = c.isSatisfiedBy value := by
    rw [isSatisfiedBy_eq_decide, isSatisfiedBy_eq_decide, trueCount_update_of_absent h]
  rw [addChange, hsame]
  cases c.isSatisfiedBy value <;> rfl

/-- **A true literal becomes false**: the weight is added where it was the last one. -/
theorem addChange_of_true (hc : c.isTautology = false)
    (h : c.polarities[name]? = some (value name)) (price : Float) :
    c.addChange value (Function.update value name (!value name)) price =
      if c.trueCount value = 1 then price + c.weight else price := by
  have hcount := trueCount_update_of_true hc h
  have hbefore : c.isSatisfiedBy value = true := by
    rw [isSatisfiedBy_eq_decide, decide_eq_true_iff]
    omega
  by_cases hone : c.trueCount value = 1
  · have hafter : c.isSatisfiedBy (Function.update value name (!value name)) = false :=
      trueCount_eq_zero_iff.1 (by omega)
    rw [if_pos hone, addChange, hbefore, hafter]
  · have hafter : c.isSatisfiedBy (Function.update value name (!value name)) = true := by
      rw [isSatisfiedBy_eq_decide, decide_eq_true_iff]
      omega
    rw [if_neg hone, addChange, hbefore, hafter]

/-- **A false literal becomes true**: the weight is taken away where it is the first one. -/
theorem addChange_of_false (hc : c.isTautology = false)
    (h : c.polarities[name]? = some (!value name)) (price : Float) :
    c.addChange value (Function.update value name (!value name)) price =
      if c.trueCount value = 0 then price - c.weight else price := by
  have hcount := trueCount_update_of_false hc h
  have hafter : c.isSatisfiedBy (Function.update value name (!value name)) = true := by
    rw [isSatisfiedBy_eq_decide, decide_eq_true_iff]
    omega
  by_cases hzero : c.trueCount value = 0
  · rw [if_pos hzero, addChange, trueCount_eq_zero_iff.1 hzero, hafter]
  · have hbefore : c.isSatisfiedBy value = true := by
      rw [isSatisfiedBy_eq_decide, decide_eq_true_iff]
      exact hzero
    rw [if_neg hzero, addChange, hbefore, hafter]

end Clause

namespace Model

variable {m : Model} {active : List Clause} {s : State} {value : Nat → Bool} {name : Nat}

/-- **The tests on one counter** find out how the clause changes. -/
theorem addPrice_eq_ok {c : Clause} {number : Nat} {positive : Bool}
    (hcount : s.counters[number]? = some (c.trueCount value))
    (hweight : m.encoding.weights[number]? = some c.weight) (hc : c.isTautology = false)
    (hp : c.polarities[name]? = some positive) (price : Float) :
    m.addPrice s (value name) price ⟨number, positive⟩ =
      .ok (c.addChange value (Function.update value name (!value name)) price) := by
  have hw : m.weight number = .ok c.weight := by rw [weight, hweight]
  by_cases htrue : positive = value name
  · subst htrue
    rw [Clause.addChange_of_true hc hp]
    simp only [addPrice, hcount, hw, beq_self_eq_true, if_true]
    split <;> rfl
  · obtain rfl : positive = !value name := Bool.eq_not.2 htrue
    rw [Clause.addChange_of_false hc hp]
    simp only [addPrice, hcount, hw, beq_iff_eq, if_neg htrue]
    split <;> rfl

/-- A stretch of the clauses, from a given number on: its occurrences add what its clauses do. -/
theorem foldlM_addPrice {first : Nat} {clauses : List Clause}
    (hread : ∀ k c, clauses[k]? = some c → s.counters[first + k]? = some (c.trueCount value) ∧
      m.encoding.weights[first + k]? = some c.weight)
    (hclauses : ∀ c ∈ clauses, c.isTautology = false) (price : Float) :
    (occurrencesFrom first clauses name).foldlM (m.addPrice s (value name)) price =
      .ok (clauses.foldl
        (Clause.addChange value (Function.update value name (!value name))) price) := by
  -- the induction is over the clauses, not the occurrences: their numbers then stay in step
  induction clauses generalizing first price with
  | nil => rfl
  | cons c cs ih =>
      have hrest : ∀ k d, cs[k]? = some d →
          s.counters[first + 1 + k]? = some (d.trueCount value) ∧
            m.encoding.weights[first + 1 + k]? = some d.weight := by
        intro k d hk
        rw [Nat.add_assoc, Nat.add_comm 1 k]
        exact hread (k + 1) d hk
      have hcs : ∀ d ∈ cs, d.isTautology = false :=
        fun d hd => hclauses d (List.mem_cons_of_mem c hd)
      rw [occurrencesFrom_cons, List.foldl_cons]
      cases hp : c.polarities[name]? with
      | none =>
          rw [Clause.addChange_of_absent hp]
          exact ih hrest hcs price
      | some positive =>
          obtain ⟨hcount, hweight⟩ := hread 0 c rfl
          rw [Nat.add_zero] at hcount hweight
          have hstep := addPrice_eq_ok hcount hweight (hclauses c List.mem_cons_self) hp price
          rw [Option.map_some, Option.toList_some, List.singleton_append, List.foldlM_cons, hstep]
          exact ih hrest hcs _

/-- **The price of a flip, in terms of the active clauses**: those that change their status, in
their order. -/
theorem Counts.costDifference_eq (he : m.Encodes active) (hs : m.Counts active s)
    (hvalue : m.Agrees s value) {i : Nat} (hi : m.encoding.names[i]? = some name) :
    m.costDifference s i = .ok (active.foldl
      (Clause.addChange value (Function.update value name (!value name))) 0.0) := by
  have hread : ∀ k c, active[k]? = some c → s.counters[1 + k]? = some (c.trueCount value) ∧
      m.encoding.weights[1 + k]? = some c.weight := by
    intro k c hk
    rw [Nat.add_comm 1 k]
    exact ⟨hs.counter_succ value hvalue k c hk, he.getElem?_weights hk⟩
  have hval : s.value i = .ok (value name) := by rw [State.value, hvalue i name hi]
  rw [costDifference, hval, he.affected_eq_ok hi]
  exact foldlM_addPrice hread he.isTautology_eq 0.0

/-- **One flip, seen from the names**: it succeeds, one name changes its value, and the prices of
the flip and of the way back are those of the change there and of the change back. -/
theorem Counts.flip_prices (he : m.Encodes active) (hs : m.Counts active s)
    (hvalue : m.Agrees s value) {i : Nat} (hi : i < m.variableCount) :
    ∃ name after t, m.encoding.names[i]? = some name ∧
      after = Function.update value name (!value name) ∧
      m.flip s i = .ok t ∧ m.Counts active t ∧ m.Agrees t after ∧
      m.costDifference s i = .ok (active.foldl (Clause.addChange value after) 0.0) ∧
      m.costDifference t i = .ok (active.foldl (Clause.addChange after value) 0.0) := by
  obtain ⟨name, hname⟩ := he.exists_name hi
  obtain ⟨t, hflip, ht, hassign⟩ := hs.flip he hi
  have hafter := hvalue.flip_forth he hname hassign
  have hback := ht.costDifference_eq he hafter hname
  -- the second change of the name undoes the first
  rw [Function.update_idem, Function.update_self, Bool.not_not, Function.update_eq_self] at hback
  exact ⟨name, _, t, hname, rfl, hflip, ht, hafter, hs.costDifference_eq he hvalue hname, hback⟩

end Model

end WeightedSat
