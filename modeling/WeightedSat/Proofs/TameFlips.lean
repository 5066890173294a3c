import WeightedSat.Proofs.Binary64.Unsigned
import WeightedSat.Proofs.Estimates

/-!
**When the smallest change is a bound for a flip.**

The smallest change is found by one sequence of cancellations, the greatest weights first.  A flip
follows other rules: it changes the clauses for which the variable is decisive, and these can be any
of its clauses.  So the estimate is what it is called, and no bound: a clause of weight one, on the
other side of one of weight three, can be lost on its own, while cancelling leaves two.  It is a
bound for flips that cannot do better than the cancellation.  These are the flips of a variable that
has one polarity in all of its clauses; those that only satisfy clauses or only leave clauses
unsatisfied, where no single weight is below the estimate; and those of a variable whose weights are
all the same, or all multiples of something that is not below the estimate.  For integer weights,
which are multiples of one, an estimate of one is therefore always a bound.

Main definitions:

* `WeightedSat.IsOneWay` — changes of the valuation that do not satisfy one clause and lose another;
* `WeightedSat.IsTameFlip` — **the flips for which the smallest change is a bound**.

Main results:

* `WeightedSat.exists_units_le_abs` — a change that goes one way costs at least some clause;
* `WeightedSat.exists_eq_mul` — the price of a change is a multiple of what the weights are
  multiples of;
* `WeightedSat.IsTameFlip.le_abs` — **the smallest change of a variable bounds its tame flips**;
* `WeightedSat.Model.minDifference_le_abs_costDifference` — **the smallest change of all bounds
  them**;
* `WeightedSat.Model.exists_abs_costDifference_lt_minDifference` — and it does not bound all flips.
-/

set_option relaxedAutoImplicit false
set_option autoImplicit false

namespace WeightedSat

open Binary64

/-! ### Clauses that change -/

namespace Clause

variable {c : Clause} {before after value : Nat → Bool} {name : Nat}

/-- Only clauses that hold a name change with its value. -/
theorem mem_names_of_changed {b : Bool}
    (h : c.isSatisfiedBy (Function.update value name b) ≠ c.isSatisfiedBy value) :
    name ∈ c.names := by
  by_contra hname
  refine h ?_
  rw [isSatisfiedBy_eq_decide, isSatisfiedBy_eq_decide,
    trueCount_update_of_absent (polarities_eq_none_iff.2 hname)]

/-- A clause that a flip satisfies has gained a true literal of the variable. -/
theorem polarities_of_gained (hc : c.isTautology = false) (hbefore : c.isSatisfiedBy value = false)
    (hafter : c.isSatisfiedBy (Function.update value name (!value name)) = true) :
    c.polarities[name]? = some (!value name) := by
  -- the flip back leaves it unsatisfied
  have hlost : c.polarities[name]? = some (Function.update value name (!value name) name) := by
    refine polarities_of_lost hc hafter ?_
    rwa [Function.update_idem, Function.update_self, Bool.not_not, Function.update_eq_self]
  rwa [Function.update_self] at hlost

/-- A clause that keeps its status costs what it did before. -/
theorem due_sub_due_of_eq (h : c.isSatisfiedBy after = c.isSatisfiedBy before) :
    c.due after - c.due before = 0 := by
  rw [due, due, h, sub_self]

/-- **A clause that changes its status** changes the price by its weight. -/
theorem due_sub_due_of_ne (h : c.isSatisfiedBy after ≠ c.isSatisfiedBy before) :
    c.due after - c.due before = c.units ∨ c.due after - c.due before = -c.units := by
  rw [due, due, Bool.eq_not.2 h]
  cases c.isSatisfiedBy before with
  | true => exact Or.inl (sub_zero _)
  | false => exact Or.inr (zero_sub _)

/-- A clause that is not satisfied by a change costs no less after it. -/
theorem HasUnits.due_sub_due_nonneg (hc : c.HasUnits)
    (h : c.isSatisfiedBy after = true → c.isSatisfiedBy before = true) :
    0 ≤ c.due after - c.due before := by
  rw [sub_nonneg, due]
  split
  · exact hc.due_nonneg after
  · rename_i hbefore
    rw [due, if_neg (mt h hbefore)]

end Clause

/-! ### Changes that go one way -/

/-- **Changes that go one way**: no clause is satisfied by the change, or none is left unsatisfied.
-/
def IsOneWay (clauses : List Clause) (before after : Nat → Bool) : Prop :=
  (∀ c ∈ clauses, c.isSatisfiedBy after = true → c.isSatisfiedBy before = true) ∨
    ∀ c ∈ clauses, c.isSatisfiedBy before = true → c.isSatisfiedBy after = true

section Prices

variable {clauses : List Clause} (hunits : ∀ c ∈ clauses, c.HasUnits) {before after : Nat → Bool}

include hunits

/-- Where no clause is satisfied and the price changes, some clause is paid for in full. -/
theorem exists_units_le_sub
    (h : ∀ c ∈ clauses, c.isSatisfiedBy after = true → c.isSatisfiedBy before = true)
    (hne : exactPrice clauses after - exactPrice clauses before ≠ 0) :
    ∃ c ∈ clauses, c.isSatisfiedBy after ≠ c.isSatisfiedBy before ∧
      c.units ≤ exactPrice clauses after - exactPrice clauses before := by
  rw [exactPrice_sub] at hne ⊢
  have hnonneg : ∀ q ∈ clauses.map fun c => c.due after - c.due before, 0 ≤ q :=
    List.forall_mem_map.2 fun c hc => (hunits c hc).due_sub_due_nonneg (h c hc)
  obtain ⟨q, hq, hq0⟩ := List.exists_mem_ne_zero_of_sum_ne_zero hne
  have hle := List.single_le_sum hnonneg q hq
  obtain ⟨c, hc, rfl⟩ := List.mem_map.1 hq
  have hchanged := mt Clause.due_sub_due_of_eq hq0
  refine ⟨c, hc, hchanged, ?_⟩
  -- the weight cannot have been saved, for no clause becomes cheaper
  rcases Clause.due_sub_due_of_ne hchanged with hunit | hunit
  · exact hunit.symm.trans_le hle
  · have hpos := hnonneg _ hq
    have hweight := (hunits c hc).nonneg
    omega

/-- **A change that goes one way costs at least some clause**, if it costs anything. -/
theorem exists_units_le_abs (h : IsOneWay clauses before after)
    (hne : exactPrice clauses after - exactPrice clauses before ≠ 0) :
    ∃ c ∈ clauses, c.isSatisfiedBy after ≠ c.isSatisfiedBy before ∧
      c.units ≤ |exactPrice clauses after - exactPrice clauses before| := by
  rcases h with h | h
  · obtain ⟨c, hc, hchanged, hle⟩ := exists_units_le_sub hunits h hne
    exact ⟨c, hc, hchanged, hle.trans (le_abs_self _)⟩
  · have hne' : exactPrice clauses before - exactPrice clauses after ≠ 0 := by
      rw [← neg_sub]
      exact neg_ne_zero.2 hne
    obtain ⟨c, hc, hchanged, hle⟩ := exists_units_le_sub hunits h hne'
    rw [abs_sub_comm]
    exact ⟨c, hc, hchanged.symm, hle.trans (le_abs_self _)⟩

end Prices

/-- **The price of a change is a multiple** of what the weights of the changed clauses are multiples
of. -/
theorem exists_eq_mul {clauses : List Clause} {before after : Nat → Bool} {unit : ℚ}
    (h : ∀ c ∈ clauses, c.isSatisfiedBy after ≠ c.isSatisfiedBy before →
      ∃ n : ℤ, (c.units : ℚ) = n * unit) :
    ∃ n : ℤ, ((exactPrice clauses after - exactPrice clauses before : ℤ) : ℚ) = n * unit := by
  have hmem : ∀ q ∈ (clauses.map fun c => c.due after - c.due before).map ((↑) : ℤ → ℚ),
      q ∈ AddSubgroup.zmultiples unit := by
    rw [List.map_map, List.forall_mem_map]
    intro c hc
    rw [Function.comp_apply]
    by_cases hsame : c.isSatisfiedBy after = c.isSatisfiedBy before
    · rw [Clause.due_sub_due_of_eq hsame, Int.cast_zero]
      exact zero_mem _
    · obtain ⟨n, hn⟩ := h c hc hsame
      have hweight : (c.units : ℚ) ∈ AddSubgroup.zmultiples unit :=
        AddSubgroup.mem_zmultiples_iff.2 ⟨n, by rw [hn, zsmul_eq_mul]⟩
      rcases Clause.due_sub_due_of_ne hsame with hunit | hunit
      · rwa [hunit]
      · rw [hunit, Int.cast_neg]
        exact neg_mem hweight
  obtain ⟨n, hn⟩ := AddSubgroup.mem_zmultiples_iff.1 (list_sum_mem hmem)
  refine ⟨n, ?_⟩
  rw [exactPrice_sub, Int.cast_list_sum, ← hn, zsmul_eq_mul]

/-! ### Flips for which the estimate is a bound -/

/-- **The flips for which the smallest change is a bound**: those of a variable that has one
polarity, or one weight, or weights that are multiples of something not below the estimate; and
those that go one way where no weight of the variable is below the estimate. -/
inductive IsTameFlip (active : List Clause) (name : Nat) (least : ℚ) (value : Nat → Bool) : Prop
  /-- All clauses that hold the variable hold it with the same polarity. -/
  | onePolarity {positive : Bool}
      (h : ∀ c ∈ active, name ∈ c.names → ⟨name, positive⟩ ∈ c.literals)
  /-- The flip goes one way, and no clause of the variable weighs less than the estimate. -/
  | oneWay (hleast : ∀ c ∈ active, name ∈ c.names → least ≤ Binary64.value c.weight)
      (h : IsOneWay active value (Function.update value name (!value name)))
  /-- All clauses that hold the variable have the same weight. -/
  | oneWeight {w : Float} (h : ∀ c ∈ active, name ∈ c.names → c.weight = w)
  /-- Their weights are multiples of something that is not below the estimate. -/
  | multiples {unit : ℚ} (hleast : least ≤ unit)
      (h : ∀ c ∈ active, name ∈ c.names → ∃ n : ℤ, Binary64.value c.weight = n * unit)

/-- What flipping a variable costs, as an integer. -/
def flipUnits (clauses : List Clause) (name : Nat) (value : Nat → Bool) : ℤ :=
  exactPrice clauses (Function.update value name (!value name)) - exactPrice clauses value

section OnePolarity

variable {active : List Clause} (hactive : AreWeighted active) {name : Nat}

include hactive

/-- A variable with one polarity is recorded with it. -/
theorem AreWeighted.polarity_eq {positive b : Bool}
    (h : ∀ c ∈ active, name ∈ c.names → ⟨name, positive⟩ ∈ c.literals) {c : Clause}
    (hc : c ∈ active) (hb : c.polarities[name]? = some b) : b = positive := by
  have htaut := hactive.isTautology_eq c hc
  have hmem := (Clause.polarities_eq_some_iff htaut).1 hb
  have hpositive := h c hc (Clause.mem_names.2 ⟨b, hmem⟩)
  rw [← Clause.polarities_eq_some_iff htaut, hb] at hpositive
  exact Option.some.inj hpositive

/-- **With one polarity** a flip goes one way. -/
theorem isOneWay_of_onePolarity {positive : Bool}
    (h : ∀ c ∈ active, name ∈ c.names → ⟨name, positive⟩ ∈ c.literals) (value : Nat → Bool) :
    IsOneWay active value (Function.update value name (!value name)) := by
  by_cases htrue : value name = positive
  · refine Or.inl fun c hc hafter => ?_
    by_contra hbefore
    have hgained := hactive.polarity_eq h hc (Clause.polarities_of_gained
      (hactive.isTautology_eq c hc) (Bool.eq_false_iff.2 hbefore) hafter)
    rw [htrue] at hgained
    exact Bool.not_ne_self positive hgained
  · refine Or.inr fun c hc hbefore => ?_
    by_contra hafter
    exact htrue (hactive.polarity_eq h hc (Clause.polarities_of_lost
      (hactive.isTautology_eq c hc) hbefore (Bool.eq_false_iff.2 hafter)))

/-- **With one polarity** the smallest change is no greater than the weight of any clause. -/
theorem smallest_le_of_onePolarity {positive : Bool}
    (h : ∀ c ∈ active, name ∈ c.names → ⟨name, positive⟩ ∈ c.literals) {c : Clause}
    (hc : c ∈ active) (hname : name ∈ c.names) :
    Binary64.value (sidesOf active name).smallest ≤ Binary64.value c.weight := by
  have hside : sideWeights active name (!positive) = [] := by
    refine List.eq_nil_iff_forall_not_mem.2 fun w hw => ?_
    obtain ⟨d, hd, hpolarity, -⟩ := mem_sideWeights.1 hw
    exact Bool.not_ne_self positive (hactive.polarity_eq h hd hpolarity)
  have hsides : (sidesOf active name).positive = [] ∨ (sidesOf active name).negative = [] := by
    cases positive with
    | true => exact Or.inr hside
    | false => exact Or.inl hside
  have hweights : ∀ w ∈ (sidesOf active name).positive ++ (sidesOf active name).negative,
      IsWeight limit w := fun _ => isWeight_of_mem_sidesOf fun _ hd _ => hactive.isWeight hd
  have hmem : c.weight ∈ (sidesOf active name).positive ++ (sidesOf active name).negative := by
    obtain ⟨b, -, hmem⟩ := exists_mem_sideWeights hc hname
    cases b with
    | true => exact List.mem_append_left _ hmem
    | false => exact List.mem_append_right _ hmem
  rw [Bounds.Sides.smallest_of_nil hsides fun w hw => (hweights w hw).isFinite]
  exact value_foldl_smaller_le hweights hmem

end OnePolarity

section Bound

variable {active : List Clause} (hunits : ∀ c ∈ active, c.HasUnits) {name : Nat}
  {value : Nat → Bool} {least : ℚ}

include hunits

/-- A flip that goes one way costs no less than the least of its weights. -/
theorem le_abs_of_isOneWay
    (hleast : ∀ c ∈ active, name ∈ c.names → least ≤ Binary64.value c.weight)
    (h : IsOneWay active value (Function.update value name (!value name)))
    (hne : flipUnits active name value ≠ 0) : least ≤ |(flipUnits active name value : ℚ)| := by
  obtain ⟨c, hc, hchanged, hle⟩ := exists_units_le_abs hunits h hne
  calc least ≤ Binary64.value c.weight := hleast c hc (Clause.mem_names_of_changed hchanged)
    _ = (c.units : ℚ) := (hunits c hc).denotes.value_eq
    _ ≤ |(flipUnits active name value : ℚ)| := by exact_mod_cast hle

/-- A flip of a variable whose weights are multiples costs no less than what they are multiples of.
-/
theorem le_abs_of_multiples {unit : ℚ} (hpos : 0 < least) (hleast : least ≤ unit)
    (h : ∀ c ∈ active, name ∈ c.names → ∃ n : ℤ, Binary64.value c.weight = n * unit)
    (hne : flipUnits active name value ≠ 0) : least ≤ |(flipUnits active name value : ℚ)| := by
  obtain ⟨n, hn⟩ : ∃ n : ℤ, (flipUnits active name value : ℚ) = n * unit := by
    refine exists_eq_mul fun c hc hchanged => ?_
    rw [← (hunits c hc).denotes.value_eq]
    exact h c hc (Clause.mem_names_of_changed hchanged)
  have hn0 : n ≠ 0 := by
    rintro rfl
    rw [Int.cast_zero, zero_mul, Int.cast_eq_zero] at hn
    exact hne hn
  have hone : (1 : ℚ) ≤ |(n : ℚ)| := by exact_mod_cast Int.one_le_abs hn0
  calc least ≤ unit := hleast
    _ = 1 * |unit| := by rw [one_mul, abs_of_pos (hpos.trans_le hleast)]
    _ ≤ |(n : ℚ)| * |unit| := mul_le_mul_of_nonneg_right hone (abs_nonneg unit)
    _ = |(flipUnits active name value : ℚ)| := by rw [hn, abs_mul]

/-- **The smallest change of a variable bounds its tame flips**, and so does all that is smaller. -/
theorem IsTameFlip.le_abs (hactive : AreWeighted active) (h : IsTameFlip active name least value)
    (hname : name ∈ distinctNames active) (hpos : 0 < least)
    (hleast : least ≤ Binary64.value (sidesOf active name).smallest)
    (hne : flipUnits active name value ≠ 0) : least ≤ |(flipUnits active name value : ℚ)| := by
  cases h with
  | onePolarity h =>
      exact le_abs_of_isOneWay hunits
        (fun c hc hname => hleast.trans (smallest_le_of_onePolarity hactive h hc hname))
        (isOneWay_of_onePolarity hactive h value) hne
  | oneWay hweight h => exact le_abs_of_isOneWay hunits hweight h hne
  | @oneWeight w h =>
      have hsmallest : IsWeight (Binary64.value w) (sidesOf active name).smallest := by
        refine isWeight_smallest_sidesOf (fun c hc hname => ?_) hname
        rw [← h c hc hname]
        exact ⟨hactive.isFinite_eq c hc, hactive.pos c hc, le_rfl⟩
      refine le_abs_of_multiples hunits hpos (hleast.trans hsmallest.le) ?_ hne
      intro c hc hname
      exact ⟨1, by rw [h c hc hname, Int.cast_one, one_mul]⟩
  | multiples hunit h => exact le_abs_of_multiples hunits hpos hunit h hne

end Bound

namespace Model

variable {m : Model} {active clauses : List Clause} {s : State}

/-- The smallest change of all is no greater than that of any variable. -/
theorem Encodes.exists_minDifference_le (he : m.Encodes active) (hvars : 0 < m.variableCount)
    {bound : ℚ} (hweight : ∀ c ∈ active, IsWeight bound c.weight) :
    ∃ least, m.minDifference = .ok least ∧ IsWeight bound least ∧
      ∀ name ∈ distinctNames active,
        Binary64.value least ≤ Binary64.value (sidesOf active name).smallest := by
  obtain ⟨first, hfirst, hmin, hleast⟩ := he.exists_minDifference hvars hweight
  refine ⟨_, hmin, hleast, fun name hname => ?_⟩
  have hsmallest : ∀ w ∈ (distinctNames active).map fun name => (sidesOf active name).smallest,
      IsWeight bound w :=
    List.forall_mem_map.2 fun _ => isWeight_smallest_sidesOf fun c hc _ => hweight c hc
  have hmem := List.mem_map_of_mem (f := fun name => (sidesOf active name).smallest) hname
  have hfold := hsmallest _ (Weight.foldl_smaller_infinity_mem (List.ne_nil_of_mem hmem)
    fun w hw => (hsmallest w hw).isFinite)
  rw [he.minDifference_eq] at hmin
  simp only [hfold.isFinite, if_true, Except.ok.injEq] at hmin
  rw [← hmin]
  exact value_foldl_smaller_le hsmallest hmem

/-- **The smallest change bounds tame flips.**  For integer weights of a total up to `2 ^ 53`, in
every reachable state, a flip of any variable that changes the price at all changes it by at least
the smallest change, provided that the variable has one polarity or one weight, or its weights are
multiples of something that is not below the smallest change, or the flip goes one way and no weight
of the variable is below the smallest change. -/
theorem minDifference_le_abs_costDifference (hm : m.Configured clauses) (hw : m.IntegerWeights)
    (hs : m.Reachable s) {i : Nat} (hi : i < m.variableCount) :
    ∃ (name : Nat) (least d : Float), m.encoding.names[i]? = some name ∧
      m.minDifference = .ok least ∧ m.costDifference s i = .ok d ∧
      (IsTameFlip (Encoding.activeClauses clauses) name (Binary64.value least) (m.valuation s) →
        (d == 0.0) = false → least ≤ d.abs) := by
  have he := hm.encodes
  have hx := hw.exactWeights hm
  have hcounts := hs.counts he
  have hvalue := he.agrees_valuation hcounts.assignment_size
  obtain ⟨name, after, -, hname, rfl, -, -, -, hprice, -⟩ := hcounts.flip_prices he hvalue hi
  have hd : Denotes _ (flipUnits (Encoding.activeClauses clauses) name (m.valuation s) : ℤ) :=
    denotes_changes hx.hasUnits _ _ hx.total_le
  obtain ⟨least, hmin, hleast, hsmallest⟩ :=
    he.exists_minDifference_le (Nat.zero_lt_of_lt hi) fun _ => hm.areWeighted.isWeight
  refine ⟨name, least, _, hname, hmin, hprice, fun htame hne => ?_⟩
  have hat := isAt_value hd.isFinite
  rw [hd.value_eq] at hat
  rw [he.getElem?_names] at hname
  have hname' := List.mem_of_getElem? hname
  have hne' : flipUnits (Encoding.activeClauses clauses) name (m.valuation s) ≠ 0 := by
    intro hzero
    rw [hzero, Int.cast_zero] at hat
    rw [(hat.beq_iff isAt_zero).2 rfl] at hne
    cases hne
  rw [(isAt_value hleast.isFinite).le_iff hat.abs]
  exact htame.le_abs hx.hasUnits hm.areWeighted hname' hleast.pos (hsmallest name hname') hne'

/-- Weights that stand for integers of a small total. -/
theorem IntegerWeights.of_map_value (units : List ℤ)
    (h : (m.encoding.weights.toList.drop 1).map Binary64.value = units.map (↑))
    (htotal : units.sum ≤ 2 ^ 53) : m.IntegerWeights := by
  refine ⟨fun w hw => ?_, ?_⟩
  · have hvalue := List.mem_map_of_mem (f := Binary64.value) hw
    rw [h] at hvalue
    obtain ⟨n, -, hn⟩ := List.mem_map.1 hvalue
    exact ⟨n, hn.symm⟩
  · rw [h, ← Int.cast_list_sum]
    exact_mod_cast htotal

/-- Two clauses of even weights, with the first variable in both polarities. -/
def evenClauses : List Clause :=
  [⟨6.0, [⟨1, true⟩, ⟨2, true⟩]⟩, ⟨4.0, [⟨1, false⟩, ⟨2, true⟩]⟩]

/-- The model of the two clauses of even weights. -/
def evenModel : Model :=
  ⟨.eight, some (.ofActive evenClauses [])⟩

/-- With all variables false, flipping the first satisfies the one clause and loses the other: the
price changes by two, and this is the smallest change. -/
theorem minDifference_le_abs_costDifference_sample :
    ∃ s least d, (unconfigured .eight).configure evenClauses = .ok evenModel ∧
      evenModel.start = .ok s ∧ evenModel.minDifference = .ok least ∧
      evenModel.costDifference s 0 = .ok d ∧ (d == 0.0) = false ∧ least ≤ d.abs := by
  have hm : (unconfigured .eight).configure evenClauses = .ok evenModel := rfl
  have hs : evenModel.start = .ok ⟨#[false, false], #[0, 0, 1]⟩ := rfl
  have htwo : Binary64.value 2.0 = 2 := by
    rw [value_of_unpack (m := 2 ^ 52) (e := -51) (h := by decide) rfl]
    norm_num
  have hfour : Binary64.value 4.0 = 4 := by
    rw [value_of_unpack (m := 2 ^ 52) (e := -50) (h := by decide) rfl]
    norm_num
  have hsix : Binary64.value 6.0 = 6 := by
    rw [value_of_unpack (m := 3 * 2 ^ 51) (e := -50) (h := by decide) rfl]
    norm_num
  have hw : evenModel.IntegerWeights := by
    refine .of_map_value [6, 4] ?_ (by decide)
    change [Binary64.value 6.0, Binary64.value 4.0] = _
    simp [hsix, hfour]
  obtain ⟨name, least, d, -, hmin, hd, hbound⟩ :=
    minDifference_le_abs_costDifference (.configure hm) hw (.start (.start hs)) (i := 0) (by decide)
  have hleast : evenModel.minDifference = .ok 2.0 := rfl
  have hprice : evenModel.costDifference ⟨#[false, false], #[0, 0, 1]⟩ 0 = .ok (-2.0) := rfl
  obtain rfl : 2.0 = least := Except.ok.inj (hleast.symm.trans hmin)
  obtain rfl : -2.0 = d := Except.ok.inj (hprice.symm.trans hd)
  have hne : ((-2.0 : Float) == 0.0) = false := rfl
  refine ⟨_, 2.0, -2.0, hm, hs, hmin, hd, hne, hbound (.multiples htwo.le ?_) hne⟩
  change ∀ c ∈ evenClauses, name ∈ c.names → ∃ n : ℤ, Binary64.value c.weight = n * 2
  simp only [evenClauses, List.forall_mem_cons, hsix, hfour]
  exact ⟨fun _ => ⟨3, by norm_num⟩, fun _ => ⟨2, by norm_num⟩, by simp⟩

/-- Two clauses in which cancelling leaves two on the side of the first. -/
def unevenClauses : List Clause :=
  [⟨3.0, [⟨1, true⟩, ⟨2, true⟩]⟩, ⟨1.0, [⟨1, false⟩]⟩]

/-- The model of the two clauses. -/
def unevenModel : Model :=
  ⟨.eight, some (.ofActive unevenClauses [])⟩

/-- **The smallest change is no bound for all flips.**  Where the second variable satisfies the
clause of weight three, flipping the first one loses only the clause of weight one. -/
theorem exists_abs_costDifference_lt_minDifference :
    ∃ s least d, (unconfigured .eight).configure unevenClauses = .ok unevenModel ∧
      unevenModel.IntegerWeights ∧ unevenModel.Reachable s ∧ 0 < unevenModel.variableCount ∧
      unevenModel.minDifference = .ok least ∧ unevenModel.costDifference s 0 = .ok d ∧
      (d == 0.0) = false ∧ d.abs < least := by
  have hs : unevenModel.startFrom [false, true] = .ok ⟨#[false, true], #[0, 1, 1]⟩ := rfl
  have hone : Binary64.value 1.0 = 1 := by
    rw [value_of_unpack (m := 2 ^ 52) (e := -52) (h := by decide) rfl]
    norm_num
  have hthree : Binary64.value 3.0 = 3 := by
    rw [value_of_unpack (m := 3 * 2 ^ 51) (e := -51) (h := by decide) rfl]
    norm_num
  have hw : unevenModel.IntegerWeights := by
    refine .of_map_value [3, 1] ?_ (by decide)
    change [Binary64.value 3.0, Binary64.value 1.0] = _
    simp [hthree, hone]
  exact ⟨_, 2.0, 1.0, rfl, hw, .start (.startFrom hs), by decide, rfl, rfl, rfl,
    of_decide_eq_true rfl⟩

end Model

end WeightedSat
