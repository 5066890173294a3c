import WeightedSat.Proofs.Binary64.Sums
import WeightedSat.Proofs.StatusChanges
import WeightedSat.Proofs.Tracking

/-!
**The price of a state in rounded arithmetic.**

With arbitrary weights the price of a state is a sum over a sublist of the weights that is rounded
after every addition: small weights may be absorbed, and the sum may overflow.  It still orders
states as their unsatisfied clauses do.  It is zero exactly when nothing is unsatisfied, because a
sum of positive words is at least each of them; and a state that leaves more clauses unsatisfied
costs no less, because at every clause at least as much is added.

Main definitions:

* `WeightedSat.AreWeighted` — active clauses with positive finite weights;
* `WeightedSat.Clause.owed?` — what an unsatisfied clause adds to the price;
* `WeightedSat.costPlace` — the place of the price of a valuation.

Main results:

* `WeightedSat.Model.Counts.cost_eq_owed` — the price of a state, clause by clause;
* `WeightedSat.costPlace_pos`, `WeightedSat.costPlace_mono` — **positive where a clause is
  unsatisfied, and no lower where more are**;
* `WeightedSat.Model.cost_orders_unsatisfied` — **the price of a state orders unsatisfied clauses
  faithfully**.
-/

set_option relaxedAutoImplicit false
set_option autoImplicit false

namespace WeightedSat

open Binary64

/-- Active clauses of a model: none is always true, and the weights are finite and positive. -/
structure AreWeighted (clauses : List Clause) : Prop where
  isTautology_eq : ∀ c ∈ clauses, c.isTautology = false
  isFinite_eq : ∀ c ∈ clauses, c.weight.isFinite = true
  pos : ∀ c ∈ clauses, 0 < Binary64.value c.weight

theorem Model.Configured.areWeighted {m : Model} {clauses : List Clause}
    (hm : m.Configured clauses) : AreWeighted (Encoding.activeClauses clauses) where
  isTautology_eq := hm.encodes.isTautology_eq
  isFinite_eq _ hc := (hm.weight_pos (Encoding.mem_activeClauses.1 hc).1).1
  pos _ hc := (hm.weight_pos (Encoding.mem_activeClauses.1 hc).1).2

/-! ### One clause -/

namespace Clause

/-- What a clause adds to the price of a valuation: its weight where it is unsatisfied. -/
def owed? (value : Nat → Bool) (c : Clause) : Option Float :=
  if c.isSatisfiedBy value then none else some c.weight

variable {c : Clause} {value : Nat → Bool}

theorem owed?_of_unsatisfied (h : c.isSatisfiedBy value = false) :
    c.owed? value = some c.weight := by
  rw [owed?, h, if_neg Bool.false_ne_true]

theorem owed?_eq_none_iff : c.owed? value = none ↔ c.isSatisfiedBy value = true := by
  rw [owed?]
  cases c.isSatisfiedBy value <;> simp

theorem isFinite_of_owed? (hc : c.weight.isFinite = true) {w : Float}
    (hw : c.owed? value = some w) : w.isFinite = true := by
  rw [owed?] at hw
  split at hw
  · cases hw
  · cases hw
    exact hc

theorem share_owed?_nonneg (hc : 0 < Binary64.value c.weight) (value : Nat → Bool) :
    0 ≤ share (c.owed? value) := by
  rw [owed?]
  split
  · exact le_rfl
  · exact hc.le

end Clause

/-! ### All clauses -/

/-- The place of the price of a valuation. -/
def costPlace (clauses : List Clause) (value : Nat → Bool) : ℚ :=
  sumRounded 0 (clauses.map fun c => share (c.owed? value))

section Places

variable {clauses : List Clause} (hclauses : AreWeighted clauses)

include hclauses

theorem isAt_costPlace (value : Nat → Bool) :
    IsAt ((clauses.filterMap (Clause.owed? value)).foldl (· + ·) (-0.0))
      (costPlace clauses value) :=
  isAt_negativeZero.foldl_filterMap fun c hc _ hw =>
    Clause.isFinite_of_owed? (hclauses.isFinite_eq c hc) hw

theorem costPlace_nonneg (value : Nat → Bool) : 0 ≤ costPlace clauses value := by
  refine isAt_zero.le_sumRounded isAt_zero.abs_le le_rfl ?_
  intro q hq
  obtain ⟨c, hc, rfl⟩ := List.mem_map.1 hq
  exact Clause.share_owed?_nonneg (hclauses.pos c hc) value

/-- **An unsatisfied clause makes the price positive**: no rounding loses all of its weight. -/
theorem costPlace_pos {value : Nat → Bool} {c : Clause} (hc : c ∈ clauses)
    (hunsat : c.isSatisfiedBy value = false) : 0 < costPlace clauses value :=
  (hclauses.pos c hc).trans_le
    (value_le_sumRounded hc (Clause.owed?_of_unsatisfied hunsat) (hclauses.isFinite_eq c hc)
      fun d hd => Clause.share_owed?_nonneg (hclauses.pos d hd) value)

/-- **The price is no lower where more clauses are unsatisfied.** -/
theorem costPlace_mono {before after : Nat → Bool}
    (h : ∀ c ∈ clauses, c.isSatisfiedBy before = false → c.isSatisfiedBy after = false) :
    costPlace clauses before ≤ costPlace clauses after := by
  refine sumRounded_mono ?_ isAt_zero.abs_le isAt_zero.abs_le le_rfl
  intro c hc
  cases hbefore : c.isSatisfiedBy before with
  | true =>
      have hnothing : share (c.owed? before) = 0 := by
        rw [Clause.owed?_eq_none_iff.2 hbefore, share, Option.elim_none]
      rw [hnothing]
      exact Clause.share_owed?_nonneg (hclauses.pos c hc) after
  | false =>
      rw [Clause.owed?_of_unsatisfied hbefore, Clause.owed?_of_unsatisfied (h c hc hbefore)]

end Places

namespace Model

variable {m : Model} {active clauses : List Clause} {s t : State}

/-- **The price of a state, clause by clause.** -/
theorem Counts.cost_eq_owed (he : m.Encodes active) (hs : m.Counts active s)
    {value : Nat → Bool} (hvalue : m.Agrees s value) :
    m.cost s = .ok ((active.filterMap (Clause.owed? value)).foldl (· + ·) (-0.0)) := by
  have hsame : (active.filter (!·.isSatisfiedBy value)).map (·.weight) =
      active.filterMap (Clause.owed? value) := by
    rw [← List.filterMap_eq_map, List.filterMap_filter]
    refine List.filterMap_congr ?_
    intro c _
    rw [Clause.owed?]
    cases c.isSatisfiedBy value <;> rfl
  rw [hs.cost_eq he hvalue, hsame]

/-- **The price of a state orders unsatisfied clauses faithfully**, in the arithmetic that it is
computed with.  In every reachable state it is a number or an infinity and not below zero; it is
zero exactly when every clause, those that are always true included, is satisfied by the values that
the state is rendered with, which every name has; and a state in which at least the same clauses are
unsatisfied costs no less. -/
theorem cost_orders_unsatisfied (hm : m.Configured clauses) (hs : m.Reachable s)
    (ht : m.Reachable t) :
    ∃ x y rendered, m.cost s = .ok x ∧ m.cost t = .ok y ∧ m.render s = .ok rendered ∧
      (∀ c ∈ clauses, ∀ name ∈ c.names, (rendered.lookup name).isSome) ∧
      x.isNaN = false ∧ 0.0 ≤ x ∧
      ((x == 0.0) = true ↔
        ∀ c ∈ clauses, c.isSatisfiedBy (fun name => rendered.lookup name == some true) = true) ∧
      ((∀ number, s.isSatisfied number = .ok false → t.isSatisfied number = .ok false) →
        x ≤ y) := by
  have he := hm.encodes
  have hactive := hm.areWeighted
  have hcounts := hs.counts he
  have hcounts' := ht.counts he
  obtain ⟨rendered, hrender, hnames, hvalue⟩ := hm.exists_render hcounts
  have hvalue' := he.agrees_valuation hcounts'.assignment_size
  have hx := isAt_costPlace hactive fun name => rendered.lookup name == some true
  have hy := isAt_costPlace hactive (m.valuation t)
  refine ⟨_, _, rendered, hcounts.cost_eq_owed he hvalue, hcounts'.cost_eq_owed he hvalue', hrender,
    hnames, hx.isNaN_eq, (isAt_zero.le_iff hx).2 (costPlace_nonneg hactive _), ?_, ?_⟩
  · constructor
    · intro hzero c hc
      have hplace := (hx.beq_iff isAt_zero).1 hzero
      cases htaut : c.isTautology with
      | true => exact Clause.isSatisfiedBy_of_isTautology htaut _
      | false =>
          by_contra hunsat
          have hpos := costPlace_pos hactive (Encoding.mem_activeClauses.2 ⟨hc, htaut⟩)
            (Bool.eq_false_iff.2 hunsat)
          exact hpos.ne' hplace
    · intro hall
      have hnone : (Encoding.activeClauses clauses).filterMap
          (Clause.owed? fun name => rendered.lookup name == some true) = [] := by
        rw [List.filterMap_eq_nil_iff]
        intro c hc
        exact Clause.owed?_eq_none_iff.2 (hall c (Encoding.mem_activeClauses.1 hc).1)
      rw [hnone]
      exact (isAt_negativeZero.beq_iff isAt_zero).2 rfl
  · intro hmore
    rw [hx.le_iff hy]
    refine costPlace_mono hactive ?_
    intro c hc hunsat
    obtain ⟨k, hk⟩ := List.mem_iff_getElem?.1 hc
    have hbefore := hcounts.isSatisfied_eq_ok hvalue hk
    rw [hunsat] at hbefore
    have hafter := hmore (k + 1) hbefore
    rw [hcounts'.isSatisfied_eq_ok hvalue' hk] at hafter
    exact Except.ok.inj hafter

/-- On three clauses, with all variables false and with the first one true: the first of these
states satisfies all clauses. -/
theorem cost_orders_unsatisfied_sample :
    ∃ s t x y, sampleModel.start = .ok s ∧ sampleModel.startFrom [true, false, false] = .ok t ∧
      sampleModel.cost s = .ok x ∧ sampleModel.cost t = .ok y ∧ 0.0 ≤ x ∧ x ≤ y := by
  have hs : sampleModel.start = .ok ⟨#[false, false, false], #[0, 1, 1]⟩ := rfl
  have ht : sampleModel.startFrom [true, false, false] =
      .ok ⟨#[true, false, false], #[0, 2, 0]⟩ := rfl
  obtain ⟨x, y, -, hcost, hcost', -, -, -, hnonneg, -, hmore⟩ :=
    cost_orders_unsatisfied sampleModel_configured (.start (.start hs)) (.start (.startFrom ht))
  refine ⟨_, _, x, y, hs, ht, hcost, hcost', hnonneg, hmore ?_⟩
  rintro (_ | _ | _ | number) hunsat <;> cases hunsat

end Model

end WeightedSat
