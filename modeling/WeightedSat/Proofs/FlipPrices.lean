import WeightedSat.Proofs.RoundedCost
import WeightedSat.Proofs.Sides

/-!
**Prices of flips in rounded arithmetic.**

With arbitrary weights the price of a flip is rounded at every addition, and may overflow.  Two
things hold of it nevertheless.  Undoing a flip goes through the same clauses in the same order,
each with the opposite sign, so its partial sums mirror those of the flip.  And the price stays
within the bound that is computed from the two sides of the variable: only clauses of one side can
be lost, so the sum over that whole side, which adds at least as much at every clause, ends no
lower; the clauses that can be gained bound the price from below in the same way.

Main definitions:

* `WeightedSat.flipPlace` — the place of the price of a change of the valuation;
* `WeightedSat.sidePlace` — the place of the weight of one side of a variable.

Main results:

* `WeightedSat.flipPlace_swap` — **the way back has the opposite price**;
* `WeightedSat.Clause.share_change?_le` — a clause adds no more to the price than to its side;
* `WeightedSat.abs_flipPlace_le` — the greater of the two sides bounds the price;
* `WeightedSat.Model.costDifference_flip` — **undoing a flip costs exactly the opposite**;
* `WeightedSat.Model.abs_costDifference_le` — **the largest difference bounds every flip**.
-/

set_option relaxedAutoImplicit false
set_option autoImplicit false

namespace WeightedSat

open Binary64

/-! ### One clause -/

namespace Clause

variable {c : Clause} {before after value : Nat → Bool} {name : Nat}

theorem isFinite_of_change? (hc : c.weight.isFinite = true) {w : Float}
    (hw : c.change? before after = some w) : w.isFinite = true := by
  rw [change?] at hw
  split at hw
  · cases hw
    exact hc
  · cases hw
    rw [isFinite_neg, hc]
  · cases hw

/-- **On the way back** each clause contributes the opposite. -/
theorem share_change?_swap (hc : c.weight.isFinite = true) (before after : Nat → Bool) :
    share (c.change? after before) = -share (c.change? before after) := by
  rw [change?, change?]
  cases c.isSatisfiedBy before with
  | true =>
      cases c.isSatisfiedBy after with
      | true => exact neg_zero.symm
      | false => exact value_neg hc
  | false =>
      cases c.isSatisfiedBy after with
      | true => exact (neg_eq_iff_eq_neg.2 (value_neg hc)).symm
      | false => exact neg_zero.symm

/-- A clause that a flip leaves unsatisfied has lost a true literal of the variable. -/
theorem polarities_of_lost (hc : c.isTautology = false) (hbefore : c.isSatisfiedBy value = true)
    (hafter : c.isSatisfiedBy (Function.update value name (!value name)) = false) :
    c.polarities[name]? = some (value name) := by
  have hpos : c.trueCount value ≠ 0 := by
    rw [isSatisfiedBy_eq_decide, decide_eq_true_iff] at hbefore
    exact hbefore
  have hzero := trueCount_eq_zero_iff.2 hafter
  cases hp : c.polarities[name]? with
  | none =>
      rw [trueCount_update_of_absent hp] at hzero
      exact absurd hzero hpos
  | some positive =>
      by_cases htrue : positive = value name
      · rw [htrue]
      · rw [Bool.eq_not.2 htrue] at hp
        rw [trueCount_update_of_false hc hp] at hzero
        exact absurd hzero (Nat.succ_ne_zero _)

theorem share_sideWeight?_nonneg (hc : 0 ≤ Binary64.value c.weight) (name : Nat)
    (positive : Bool) : 0 ≤ share (c.sideWeight? name positive) := by
  rw [sideWeight?]
  split
  · exact hc
  · exact le_rfl

/-- **A clause adds no more to the price of a flip than to its side**: what is lost is on the side
of the literals that were true. -/
theorem share_change?_le (hc : c.isTautology = false) (hfinite : c.weight.isFinite = true)
    (hpos : 0 ≤ Binary64.value c.weight) :
    share (c.change? value (Function.update value name (!value name))) ≤
      share (c.sideWeight? name (value name)) := by
  have hside := share_sideWeight?_nonneg hpos name (value name)
  rw [change?]
  cases hbefore : c.isSatisfiedBy value with
  | true =>
      cases hafter : c.isSatisfiedBy (Function.update value name (!value name)) with
      | true => exact hside
      | false => rw [sideWeight?, if_pos (polarities_of_lost hc hbefore hafter)]
  | false =>
      cases c.isSatisfiedBy (Function.update value name (!value name)) with
      | true =>
          have hgained : share (some (-c.weight)) = -Binary64.value c.weight := value_neg hfinite
          exact (hgained.trans_le (neg_nonpos.2 hpos)).trans hside
      | false => exact hside

end Clause

/-! ### All clauses -/

/-- The place of the price of a change of the valuation. -/
def flipPlace (clauses : List Clause) (before after : Nat → Bool) : ℚ :=
  sumRounded 0 (clauses.map fun c => share (c.change? before after))

/-- The place of the weight of one side of a variable. -/
def sidePlace (clauses : List Clause) (name : Nat) (positive : Bool) : ℚ :=
  sumRounded 0 (clauses.map fun c => share (c.sideWeight? name positive))

section Places

variable {clauses : List Clause} (hclauses : AreWeighted clauses)

include hclauses

theorem isAt_flipPlace (before after : Nat → Bool) :
    IsAt (clauses.foldl (Clause.addChange before after) 0.0)
      (flipPlace clauses before after) := by
  rw [Clause.foldl_addChange]
  exact isAt_zero.foldl_filterMap fun c hc w hw =>
    Clause.isFinite_of_change? (hclauses.isFinite_eq c hc) hw

theorem isAt_sidePlace (name : Nat) (positive : Bool) :
    IsAt (Weight.total (sideWeights clauses name positive))
      (sidePlace clauses name positive) := by
  refine isAt_zero.foldl_filterMap ?_
  intro c hc w hw
  rw [Clause.sideWeight?] at hw
  split at hw
  · cases hw
    exact hclauses.isFinite_eq c hc
  · cases hw

/-- **The way back has the opposite price.** -/
theorem flipPlace_swap (before after : Nat → Bool) :
    flipPlace clauses after before = -flipPlace clauses before after := by
  rw [flipPlace, flipPlace, ← sumRounded_neg, neg_zero, List.map_map]
  refine congrArg (sumRounded 0) (List.map_congr_left ?_)
  intro c hc
  exact Clause.share_change?_swap (hclauses.isFinite_eq c hc) before after

/-- One side bounds the price from above. -/
theorem flipPlace_le (value : Nat → Bool) (name : Nat) :
    flipPlace clauses value (Function.update value name (!value name)) ≤
      sidePlace clauses name (value name) := by
  refine sumRounded_mono ?_ isAt_zero.abs_le isAt_zero.abs_le le_rfl
  intro c hc
  exact Clause.share_change?_le (hclauses.isTautology_eq c hc) (hclauses.isFinite_eq c hc)
    (hclauses.pos c hc).le

/-- **The greater of the two sides bounds the price.** -/
theorem abs_flipPlace_le (value : Nat → Bool) (name : Nat) :
    |flipPlace clauses value (Function.update value name (!value name))| ≤
      max (sidePlace clauses name true) (sidePlace clauses name false) := by
  have hle : ∀ b, sidePlace clauses name b ≤
      max (sidePlace clauses name true) (sidePlace clauses name false) := by
    rintro (_ | _)
    · exact le_max_right _ _
    · exact le_max_left _ _
  refine abs_le'.2 ⟨(flipPlace_le hclauses value name).trans (hle _), ?_⟩
  -- the price from below is the price of the way back from above
  have hback := flipPlace_le hclauses (Function.update value name (!value name)) name
  rw [Function.update_idem, Function.update_self, Bool.not_not, Function.update_eq_self,
    flipPlace_swap hclauses] at hback
  exact hback.trans (hle _)

end Places

namespace Model

variable {m : Model} {active clauses : List Clause} {s : State}

/-- The largest difference is no less than the sides of any variable. -/
theorem Encodes.exists_maxDifference (he : m.Encodes active) (hactive : AreWeighted active) :
    ∃ largest r, m.maxDifference = .ok largest ∧ IsAt largest r ∧
      ∀ name ∈ distinctNames active,
        max (sidePlace active name true) (sidePlace active name false) ≤ r := by
  have hlargest : ∀ name, IsAt (sidesOf active name).largest
      (max (sidePlace active name true) (sidePlace active name false)) := fun name =>
    (isAt_sidePlace hactive name true).larger (isAt_sidePlace hactive name false)
  have hnumbers : ∀ w ∈ (distinctNames active).map fun name => (sidesOf active name).largest,
      w.isNaN = false := by
    intro w hw
    obtain ⟨name, -, rfl⟩ := List.mem_map.1 hw
    exact (hlargest name).isNaN_eq
  refine ⟨_, _, he.maxDifference_eq, isAt_zero.foldl_larger hnumbers, ?_⟩
  intro name hname
  rw [← (hlargest name).place_eq]
  exact (Encoding.foldl_max_le_iff.1 le_rfl).2 _
    (List.mem_map_of_mem (List.mem_map_of_mem hname))

/-- **The largest difference bounds every flip**, in the arithmetic that both are computed with: in
every reachable state the price of flipping any variable is a number or an infinity, and its size is
at most the largest difference. -/
theorem abs_costDifference_le (hm : m.Configured clauses) :
    ∃ largest, m.maxDifference = .ok largest ∧
      ∀ s, m.Reachable s → ∀ i < m.variableCount,
        ∃ d, m.costDifference s i = .ok d ∧ d.isNaN = false ∧ d.abs ≤ largest := by
  have he := hm.encodes
  obtain ⟨largest, r, hmax, hr, hsides⟩ := he.exists_maxDifference hm.areWeighted
  refine ⟨largest, hmax, ?_⟩
  intro s hs i hi
  have hcounts := hs.counts he
  have hvalue := he.agrees_valuation hcounts.assignment_size
  obtain ⟨name, after, -, hname, rfl, -, -, -, hprice, -⟩ := hcounts.flip_prices he hvalue hi
  have hd := isAt_flipPlace hm.areWeighted (m.valuation s)
    (Function.update (m.valuation s) name (!m.valuation s name))
  refine ⟨_, hprice, hd.isNaN_eq, ?_⟩
  rw [he.getElem?_names] at hname
  rw [hd.abs.le_iff hr]
  exact (abs_flipPlace_le hm.areWeighted (m.valuation s) name).trans
    (hsides name (List.mem_of_getElem? hname))

/-- On three clauses with all variables false, for the first variable. -/
theorem abs_costDifference_le_sample :
    ∃ largest s d, sampleModel.maxDifference = .ok largest ∧ sampleModel.start = .ok s ∧
      sampleModel.costDifference s 0 = .ok d ∧ d.abs ≤ largest := by
  have hs : sampleModel.start = .ok ⟨#[false, false, false], #[0, 1, 1]⟩ := rfl
  obtain ⟨largest, hlargest, hflips⟩ := abs_costDifference_le sampleModel_configured
  obtain ⟨d, hd, -, hle⟩ := hflips _ (.start (.start hs)) 0 (by decide)
  exact ⟨largest, _, d, hlargest, hs, hd, hle⟩

/-- **Undoing a flip costs exactly the opposite**, whatever has been rounded: in every reachable
state, and for every variable, the price of flipping the variable once more is the negative of the
price of flipping it. -/
theorem costDifference_flip (hm : m.Configured clauses) (hs : m.Reachable s) {i : Nat}
    (hi : i < m.variableCount) :
    ∃ t d back, m.flip s i = .ok t ∧ m.costDifference s i = .ok d ∧
      m.costDifference t i = .ok back ∧ (back == -d) = true := by
  have he := hm.encodes
  have hcounts := hs.counts he
  have hvalue := he.agrees_valuation hcounts.assignment_size
  obtain ⟨name, after, t, -, -, hflip, -, -, hprice, hback⟩ := hcounts.flip_prices he hvalue hi
  have hd := isAt_flipPlace hm.areWeighted (m.valuation s) after
  have hd' := isAt_flipPlace hm.areWeighted after (m.valuation s)
  refine ⟨t, _, _, hflip, hprice, hback, ?_⟩
  rw [hd'.beq_iff hd.neg]
  exact flipPlace_swap hm.areWeighted _ _

/-- On three clauses with all variables false, the first variable is flipped there and back. -/
theorem costDifference_flip_sample :
    ∃ s t d back, sampleModel.start = .ok s ∧ sampleModel.flip s 0 = .ok t ∧
      sampleModel.costDifference s 0 = .ok d ∧ sampleModel.costDifference t 0 = .ok back ∧
      (back == -d) = true := by
  have hs : sampleModel.start = .ok ⟨#[false, false, false], #[0, 1, 1]⟩ := rfl
  obtain ⟨t, d, back, hflip, hd, hback, heq⟩ :=
    costDifference_flip sampleModel_configured (.start (.start hs)) (i := 0) (by decide)
  exact ⟨_, t, d, back, hs, hflip, hd, hback, heq⟩

end Model

end WeightedSat
