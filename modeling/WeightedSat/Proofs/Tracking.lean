import WeightedSat.Proofs.Binary64.Exact
import WeightedSat.Proofs.Differences
import WeightedSat.Proofs.Price

/-!
**Keeping the price along a run.**

A run can keep the price of its state without computing it anew: before each flip it adds the price
of the flip.  With integer weights of a total up to `2 ^ 53` no addition is ever rounded: every
partial sum is an integer that the total bounds.  So the price that is kept is the price of the
state, however long the run, and each flip changes the price by exactly what was computed for it.

Main definitions:

* `WeightedSat.Model.IntegerWeights` — integer weights of a total up to `2 ^ 53`;
* `WeightedSat.exactPrice` — the price of a valuation, as an integer;
* `WeightedSat.Model.track` — a run that keeps the price.

Main results:

* `WeightedSat.denotes_foldl` — **sums of changes within the bound are exact**;
* `WeightedSat.Model.Counts.denotes_cost`, `WeightedSat.Model.Counts.denotes_costDifference` — the
  two prices as integers;
* `WeightedSat.Model.track_cost_eq` — **the price that is kept is the price of the state**.
-/

set_option relaxedAutoImplicit false
set_option autoImplicit false

namespace WeightedSat

open Binary64

/-! ### Prices as integers -/

namespace Clause

/-- The weight of a clause, as an integer. -/
def units (c : Clause) : ℤ := ⌊Binary64.value c.weight⌋

/-- What a clause costs under a valuation, as an integer. -/
def due (c : Clause) (value : Nat → Bool) : ℤ :=
  if c.isSatisfiedBy value then 0 else c.units

/-- A clause whose weight is an integer. -/
structure HasUnits (c : Clause) : Prop where
  denotes : Denotes c.weight c.units
  nonneg : 0 ≤ c.units

theorem HasUnits.due_nonneg {c : Clause} (h : c.HasUnits) (value : Nat → Bool) :
    0 ≤ c.due value := by
  rw [due]
  split
  · exact le_rfl
  · exact h.nonneg

theorem HasUnits.due_le {c : Clause} (h : c.HasUnits) (value : Nat → Bool) :
    c.due value ≤ c.units := by
  rw [due]
  split
  · exact h.nonneg
  · exact le_rfl

/-- Adding the weight of a clause where it is unsatisfied adds what it costs. -/
theorem HasUnits.addDue {c : Clause} (h : c.HasUnits) (value : Nat → Bool) {x : Float} {p : ℤ}
    (hx : Denotes x p) (hp : |p + c.due value| ≤ 2 ^ 53) :
    Denotes (if (!c.isSatisfiedBy value) = true then x + c.weight else x)
      (p + c.due value : ℤ) := by
  rw [due] at hp ⊢
  cases hsat : c.isSatisfiedBy value with
  | true => simpa using hx
  | false =>
      simp only [hsat, Bool.false_eq_true, if_false] at hp
      simpa using hx.addInt h.denotes hp

/-- What a change of the valuation adds for one clause is the change of what it costs. -/
theorem HasUnits.addChange {c : Clause} (h : c.HasUnits) (before after : Nat → Bool) {x : Float}
    {p : ℤ} (hx : Denotes x p) (hp : |p + (c.due after - c.due before)| ≤ 2 ^ 53) :
    Denotes (c.addChange before after x) (p + (c.due after - c.due before) : ℤ) := by
  rw [due, due] at hp ⊢
  rw [Clause.addChange]
  cases hbefore : c.isSatisfiedBy before with
  | true =>
      cases hafter : c.isSatisfiedBy after with
      | true => simpa using hx
      | false =>
          simp only [hbefore, hafter, Bool.false_eq_true, if_true, if_false, sub_zero] at hp ⊢
          exact hx.addInt h.denotes hp
  | false =>
      cases hafter : c.isSatisfiedBy after with
      | true =>
          simp only [hbefore, hafter, Bool.false_eq_true, if_true, if_false, zero_sub,
            ← sub_eq_add_neg] at hp ⊢
          exact hx.subInt h.denotes hp
      | false => simpa using hx

end Clause

/-- **The price of a valuation**, as an integer. -/
def exactPrice (clauses : List Clause) (value : Nat → Bool) : ℤ :=
  (clauses.map (·.due value)).sum

/-- The weight of all clauses, as an integer. -/
def totalUnits (clauses : List Clause) : ℤ :=
  (clauses.map (·.units)).sum

/-- The change of the price is the sum of the changes of the clauses. -/
theorem exactPrice_sub (clauses : List Clause) (before after : Nat → Bool) :
    exactPrice clauses after - exactPrice clauses before =
      (clauses.map fun c => c.due after - c.due before).sum := by
  rw [sub_eq_iff_eq_add, exactPrice, exactPrice, ← List.sum_map_add]
  simp only [sub_add_cancel]

section Sums

variable {clauses : List Clause} (hunits : ∀ c ∈ clauses, c.HasUnits)

include hunits

theorem exactPrice_nonneg (value : Nat → Bool) : 0 ≤ exactPrice clauses value := by
  refine List.sum_nonneg ?_
  intro n hn
  obtain ⟨c, hc, rfl⟩ := List.mem_map.1 hn
  exact (hunits c hc).due_nonneg value

theorem exactPrice_le_totalUnits (value : Nat → Bool) :
    exactPrice clauses value ≤ totalUnits clauses :=
  List.sum_le_sum fun c hc => (hunits c hc).due_le value

theorem totalUnits_nonneg : 0 ≤ totalUnits clauses :=
  (exactPrice_nonneg hunits fun _ => true).trans (exactPrice_le_totalUnits hunits _)

/-- **Sums of changes within the bound are exact**: where each clause changes the sum by at most its
weight, no partial sum exceeds the weight of all. -/
theorem denotes_foldl {step : Float → Clause → Float} {change : Clause → ℤ}
    (hchange : ∀ c ∈ clauses, |change c| ≤ c.units)
    (hstep : ∀ c ∈ clauses, ∀ (x : Float) (p : ℤ), Denotes x p → |p + change c| ≤ 2 ^ 53 →
      Denotes (step x c) (p + change c : ℤ))
    {x : Float} {p : ℤ} (hx : Denotes x p) (hbound : |p| + totalUnits clauses ≤ 2 ^ 53) :
    Denotes (clauses.foldl step x) (p + (clauses.map change).sum : ℤ) := by
  induction clauses generalizing x p with
  | nil => simpa using hx
  | cons c cs ih =>
      have hcs : ∀ d ∈ cs, d ∈ c :: cs := fun d hd => List.mem_cons_of_mem c hd
      have hrest : 0 ≤ totalUnits cs := totalUnits_nonneg fun d hd => hunits d (hcs d hd)
      have htotal : totalUnits (c :: cs) = c.units + totalUnits cs := by
        rw [totalUnits, totalUnits, List.map_cons, List.sum_cons]
      -- what the clause adds is paid for by its own weight
      have hnext : |p + change c| + totalUnits cs ≤ 2 ^ 53 := by
        have habs := abs_add_le p (change c)
        have hle := hchange c List.mem_cons_self
        omega
      have hstep' := hstep c List.mem_cons_self x p hx (by omega)
      rw [List.foldl_cons, List.map_cons, List.sum_cons, ← add_assoc]
      exact ih (fun d hd => hunits d (hcs d hd)) (fun d hd => hchange d (hcs d hd))
        (fun d hd => hstep d (hcs d hd)) hstep' hnext

/-- **The weights of the unsatisfied clauses add up to the price.** -/
theorem denotes_unsatisfied (value : Nat → Bool) (hbound : totalUnits clauses ≤ 2 ^ 53) :
    Denotes (((clauses.filter (!·.isSatisfiedBy value)).map (·.weight)).foldl (· + ·) (-0.0))
      (exactPrice clauses value) := by
  have hchange : ∀ c ∈ clauses, |c.due value| ≤ c.units := by
    intro c hc
    rw [abs_of_nonneg ((hunits c hc).due_nonneg value)]
    exact (hunits c hc).due_le value
  have hsum := denotes_foldl hunits hchange
    (fun c hc x p hx hp => (hunits c hc).addDue value hx hp) denotes_negativeZero
    (by simpa using hbound)
  rw [zero_add] at hsum
  rwa [List.foldl_map, List.foldl_filter]

/-- **The changes of the clauses add up to the change of the price.** -/
theorem denotes_changes (before after : Nat → Bool) (hbound : totalUnits clauses ≤ 2 ^ 53) :
    Denotes (clauses.foldl (Clause.addChange before after) 0.0)
      (exactPrice clauses after - exactPrice clauses before : ℤ) := by
  have hchange : ∀ c ∈ clauses, |c.due after - c.due before| ≤ c.units := by
    intro c hc
    have hafter := (hunits c hc).due_nonneg after
    have hbefore := (hunits c hc).due_nonneg before
    have hafter' := (hunits c hc).due_le after
    have hbefore' := (hunits c hc).due_le before
    rw [abs_le]
    omega
  have hsum := denotes_foldl hunits hchange
    (fun c hc x p hx hp => (hunits c hc).addChange before after hx hp) denotes_zero
    (by simpa using hbound)
  rwa [zero_add, ← exactPrice_sub] at hsum

end Sums

/-- Clauses whose weights are added without rounding. -/
structure ExactWeights (clauses : List Clause) : Prop where
  hasUnits : ∀ c ∈ clauses, c.HasUnits
  total_le : totalUnits clauses ≤ 2 ^ 53

theorem ExactWeights.exactPrice_bounds {clauses : List Clause} (h : ExactWeights clauses)
    (value : Nat → Bool) : 0 ≤ exactPrice clauses value ∧ exactPrice clauses value ≤ 2 ^ 53 :=
  ⟨exactPrice_nonneg h.hasUnits value, (exactPrice_le_totalUnits h.hasUnits value).trans h.total_le⟩

namespace Model

/-! ### Integer weights -/

/-- **Integer weights of a total up to `2 ^ 53`**, leaving out the unused slot. -/
structure IntegerWeights (m : Model) : Prop where
  integer : ∀ w ∈ m.encoding.weights.toList.drop 1, ∃ n : ℤ, Binary64.value w = n
  total_le : ((m.encoding.weights.toList.drop 1).map Binary64.value).sum ≤ 2 ^ 53

variable {m : Model} {active clauses : List Clause} {s t : State}

/-- The weight of a clause that has been configured is finite and positive. -/
theorem Configured.weight_pos (hm : m.Configured clauses) {c : Clause} (hc : c ∈ clauses) :
    c.weight.isFinite = true ∧ 0 < Binary64.value c.weight := by
  obtain ⟨e, hbuild, -⟩ := hm.encoding?_eq
  obtain ⟨-, ⟨hfinite, hpos⟩, -⟩ := Encoding.admitted_of_build hbuild hc
  exact ⟨hfinite, (lt_iff denotes_zero.isFinite hfinite).1 hpos⟩

/-- The weights of the tables are those of the active clauses. -/
theorem Configured.drop_weights (hm : m.Configured clauses) :
    m.encoding.weights.toList.drop 1 = (Encoding.activeClauses clauses).map (·.weight) := by
  rw [hm.encodes.weights_eq, List.drop_one, List.tail_cons]

/-- Clauses with integer weights. -/
theorem Configured.hasUnits (hm : m.Configured clauses)
    (hinteger : ∀ w ∈ m.encoding.weights.toList.drop 1, ∃ n : ℤ, Binary64.value w = n) {c : Clause}
    (hc : c ∈ Encoding.activeClauses clauses) : c.HasUnits := by
  obtain ⟨hfinite, hpos⟩ := hm.weight_pos (Encoding.mem_activeClauses.1 hc).1
  rw [hm.drop_weights] at hinteger
  obtain ⟨n, hn⟩ := hinteger c.weight (List.mem_map_of_mem hc)
  have hn' : c.units = n := by rw [Clause.units, hn, Int.floor_intCast]
  refine ⟨⟨hfinite, by rw [hn', hn]⟩, ?_⟩
  rw [hn] at hpos
  rw [hn']
  exact_mod_cast hpos.le

/-- **Integer weights are added without rounding.** -/
theorem IntegerWeights.exactWeights (hw : m.IntegerWeights) (hm : m.Configured clauses) :
    ExactWeights (Encoding.activeClauses clauses) := by
  refine ⟨fun c hc => hm.hasUnits hw.integer hc, ?_⟩
  have hcast : ((totalUnits (Encoding.activeClauses clauses) : ℤ) : ℚ) =
      ((Encoding.activeClauses clauses).map fun c => Binary64.value c.weight).sum := by
    rw [totalUnits, Int.cast_list_sum, List.map_map]
    congr 1
    exact List.map_congr_left fun c hc => (hm.hasUnits hw.integer hc).denotes.value_eq.symm
  have hle := hw.total_le
  rw [hm.drop_weights, List.map_map] at hle
  exact_mod_cast hcast.trans_le hle

/-! ### The two prices as integers -/

theorem Counts.denotes_cost (he : m.Encodes active) (hx : ExactWeights active)
    (hs : m.Counts active s) {value : Nat → Bool} (hvalue : m.Agrees s value) :
    ∃ x, m.cost s = .ok x ∧ Denotes x (exactPrice active value) :=
  ⟨_, hs.cost_eq he hvalue, denotes_unsatisfied hx.hasUnits value hx.total_le⟩

/-- **One step**: a flip changes the price by exactly what is computed for it. -/
theorem Counts.denotes_costDifference (he : m.Encodes active) (hx : ExactWeights active)
    (hs : m.Counts active s) {value : Nat → Bool} (hvalue : m.Agrees s value) {i : Nat}
    (hi : i < m.variableCount) :
    ∃ d t after, m.costDifference s i = .ok d ∧ m.flip s i = .ok t ∧ m.Counts active t ∧
      m.Agrees t after ∧ Denotes d (exactPrice active after - exactPrice active value : ℤ) := by
  obtain ⟨name, after, t, -, -, hflip, ht, hafter, hprice, -⟩ := hs.flip_prices he hvalue hi
  exact ⟨_, t, after, hprice, hflip, ht, hafter, denotes_changes hx.hasUnits _ _ hx.total_le⟩

/-! ### Runs that keep the price -/

/-- **A run that keeps the price**: before each flip, the price of the flip is added. -/
def track (m : Model) (price : Float) (s : State) : List Nat → Except Fault (Float × State)
  | [] => .ok (price, s)
  | i :: is => do
      let difference ← m.costDifference s i
      let t ← m.flip s i
      m.track (price + difference) t is

/-- **A whole run**: the price that is kept stays the price of the state. -/
theorem Counts.denotes_track (he : m.Encodes active) (hx : ExactWeights active)
    (hs : m.Counts active s) {value : Nat → Bool} (hvalue : m.Agrees s value) {price : Float}
    (hprice : Denotes price (exactPrice active value)) {indices : List Nat}
    (hindices : ∀ i ∈ indices, i < m.variableCount) :
    ∃ tracked t after, m.track price s indices = .ok (tracked, t) ∧ m.flips s indices = .ok t ∧
      m.Counts active t ∧ m.Agrees t after ∧ Denotes tracked (exactPrice active after) := by
  -- the valuation goes along with the state: the two prices of a flip are stated in terms of it
  induction indices generalizing s price value with
  | nil => exact ⟨price, s, value, rfl, rfl, hs, hvalue, hprice⟩
  | cons i is ih =>
      obtain ⟨d, t, after, hd, hflip, ht, hafter, hdenotes⟩ :=
        hs.denotes_costDifference he hx hvalue (hindices i List.mem_cons_self)
      -- the sum of the old price and of the change is the new price, which the total bounds
      have hsum : exactPrice active value + (exactPrice active after - exactPrice active value) =
          exactPrice active after := add_sub_cancel _ _
      have hbound : |exactPrice active after| ≤ 2 ^ 53 := by
        have hafter' := hx.exactPrice_bounds after
        rw [abs_le]
        omega
      have hnext := hprice.addInt hdenotes (by rwa [hsum])
      rw [hsum] at hnext
      obtain ⟨tracked, u, last, htrack, hflips, hrest⟩ :=
        ih ht hafter hnext fun j hj => hindices j (List.mem_cons_of_mem i hj)
      refine ⟨tracked, u, last, ?_, ?_, hrest⟩
      · rw [track, hd, hflip]
        exact htrack
      · rw [Model.flips, List.foldlM_cons, hflip]
        exact hflips

/-- Each flip changes the price of the state by its own price. -/
theorem Counts.cost_sub_cost (he : m.Encodes active) (hx : ExactWeights active)
    (hs : m.Counts active s) {i : Nat} (hi : i < m.variableCount) :
    ∃ d t x y, m.costDifference s i = .ok d ∧ m.flip s i = .ok t ∧ m.cost s = .ok x ∧
      m.cost t = .ok y ∧ (y - x == d) = true := by
  have hvalue := he.agrees_valuation hs.assignment_size
  obtain ⟨d, t, after, hd, hflip, ht, hafter, hdenotes⟩ :=
    hs.denotes_costDifference he hx hvalue hi
  obtain ⟨x, hcost, hprice⟩ := hs.denotes_cost he hx hvalue
  obtain ⟨y, hcost', hprice'⟩ := ht.denotes_cost he hx hafter
  have hbound : |exactPrice active after - exactPrice active (m.valuation s)| ≤ 2 ^ 53 := by
    have hbefore' := hx.exactPrice_bounds (m.valuation s)
    have hafter' := hx.exactPrice_bounds after
    rw [abs_le]
    omega
  exact ⟨d, t, x, y, hd, hflip, hcost, hcost', (hprice'.subInt hprice hbound).beq hdenotes⟩

/-- **The price that is kept is the price of the state.**  With integer weights of a total up to
`2 ^ 53`, a run that starts from the price of its first state and adds the price of each flip ends
with the price of its last state; and each single flip on the way changes the price of the state by
exactly the price of the flip. -/
theorem track_cost_eq (hm : m.Configured clauses) (hw : m.IntegerWeights) (hs : m.IsStart s)
    (indices : List Nat) (hindices : ∀ i ∈ indices, i < m.variableCount) :
    (∃ price tracked t final, m.cost s = .ok price ∧ m.track price s indices = .ok (tracked, t) ∧
        m.flips s indices = .ok t ∧ m.cost t = .ok final ∧ (tracked == final) = true) ∧
      ∀ (is js : List Nat) (i : Nat), indices = is ++ i :: js →
        ∃ u d v x y, m.flips s is = .ok u ∧ m.costDifference u i = .ok d ∧ m.flip u i = .ok v ∧
          m.cost u = .ok x ∧ m.cost v = .ok y ∧ (y - x == d) = true := by
  have he := hm.encodes
  have hx := hw.exactWeights hm
  have hcounts := hs.counts he
  refine ⟨?_, ?_⟩
  · have hvalue := he.agrees_valuation hcounts.assignment_size
    obtain ⟨price, hcost, hprice⟩ := hcounts.denotes_cost he hx hvalue
    obtain ⟨tracked, t, after, htrack, hflips, ht, hafter, hdenotes⟩ :=
      hcounts.denotes_track he hx hvalue hprice hindices
    obtain ⟨final, hcost', hprice'⟩ := ht.denotes_cost he hx hafter
    exact ⟨price, tracked, t, final, hcost, htrack, hflips, hcost', hdenotes.beq hprice'⟩
  · rintro is js i rfl
    obtain ⟨u, hflips, hu, -⟩ :=
      hcounts.flips he fun j hj => hindices j (List.mem_append_left _ hj)
    obtain ⟨d, v, x, y, hd, hflip, hcost, hcost', heq⟩ :=
      hu.cost_sub_cost he hx (hindices i (List.mem_append_right _ List.mem_cons_self))
    exact ⟨u, d, v, x, y, hflips, hd, hflip, hcost, hcost', heq⟩

/-- A run on three clauses, of weights one and three where they are active. -/
theorem track_cost_eq_sample :
    ∃ s price tracked t final, sampleModel.start = .ok s ∧ sampleModel.cost s = .ok price ∧
      sampleModel.track price s [0, 2, 0] = .ok (tracked, t) ∧ sampleModel.cost t = .ok final ∧
      (tracked == final) = true := by
  have hs : sampleModel.start = .ok ⟨#[false, false, false], #[0, 1, 1]⟩ := rfl
  have hweights : sampleModel.encoding.weights.toList.drop 1 = [1.0, 3.0] := rfl
  have hone : Binary64.value 1.0 = 1 := by
    rw [value_of_unpack (m := 2 ^ 52) (e := -52) (h := by decide) rfl]
    norm_num
  have hthree : Binary64.value 3.0 = 3 := by
    rw [value_of_unpack (m := 3 * 2 ^ 51) (e := -51) (h := by decide) rfl]
    norm_num
  have hw : sampleModel.IntegerWeights := by
    refine ⟨?_, ?_⟩
    · intro w hw
      rw [hweights] at hw
      simp only [List.mem_cons, List.not_mem_nil, or_false] at hw
      rcases hw with rfl | rfl
      · exact ⟨1, hone⟩
      · exact ⟨3, hthree⟩
    · rw [hweights]
      norm_num [hone, hthree]
  obtain ⟨⟨price, tracked, t, final, hcost, htrack, -, hcost', heq⟩, -⟩ :=
    track_cost_eq sampleModel_configured hw (.start hs) [0, 2, 0] (by decide)
  exact ⟨_, price, tracked, t, final, hs, hcost, htrack, hcost', heq⟩

end Model

end WeightedSat
