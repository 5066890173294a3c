import WeightedSat.Proofs.Configured
import WeightedSat.Proofs.Results

/-!
**The two sides of a variable.**

The bounds on the price of a flip are computed from the weights that a variable meets, apart for
its two polarities.  They are found through occurrences and clause numbers; in terms of the active
clauses, each side is the list of the weights of the clauses that record the variable with that
polarity, in the order of the clauses.

Main definitions:

* `WeightedSat.Clause.sideWeight?`, `WeightedSat.sideWeights` — **the weights on one side**;
* `WeightedSat.sidesOf` — both sides.

Main results:

* `WeightedSat.Bounds.mapM_weightOf` — the occurrences in a stretch of the clauses, with weights;
* `WeightedSat.Model.Encodes.sides_eq_ok` — the sides of a variable, in terms of the active clauses;
* `WeightedSat.Model.Encodes.maxDifference_eq`, `WeightedSat.Model.Encodes.minDifference_eq` —
  **the bounds, variable by variable**.
-/

set_option relaxedAutoImplicit false
set_option autoImplicit false

namespace WeightedSat

/-- The weight of a clause that records the name with the given polarity. -/
def Clause.sideWeight? (name : Nat) (positive : Bool) (c : Clause) : Option Float :=
  if c.polarities[name]? = some positive then some c.weight else none

/-- **The weights on one side of a variable**, in the order of the clauses. -/
def sideWeights (clauses : List Clause) (name : Nat) (positive : Bool) : List Float :=
  clauses.filterMap (Clause.sideWeight? name positive)

/-- Both sides of a variable. -/
def sidesOf (clauses : List Clause) (name : Nat) : Bounds.Sides :=
  ⟨sideWeights clauses name true, sideWeights clauses name false⟩

namespace Bounds

/-- What a variable meets in each clause: its polarity there, and the weight. -/
def metIn (clauses : List Clause) (name : Nat) : List (Bool × Float) :=
  clauses.filterMap fun c => c.polarities[name]?.map (·, c.weight)

/-- One side, out of everything that is met. -/
theorem map_filter_metIn (clauses : List Clause) (name : Nat) (positive : Bool) :
    ((metIn clauses name).filter (·.1 == positive)).map (·.2) =
      sideWeights clauses name positive := by
  rw [metIn, sideWeights, List.filter_filterMap, List.map_filterMap]
  congr 1
  funext c
  rw [Clause.sideWeight?]
  cases c.polarities[name]? with
  | none => rfl
  | some b => cases b <;> cases positive <;> rfl

/-- A stretch of the clauses, from a given number on: every occurrence finds its weight. -/
theorem mapM_weightOf {weights : Array Float} {first : Nat} {clauses : List Clause} (name : Nat)
    (hfirst : 0 < first)
    (hread : ∀ k c, clauses[k]? = some c → weights[first + k]? = some c.weight) :
    ((occurrencesFrom first clauses name).mapM fun o => do
      return (o.positive, ← weightOf weights o)) = .ok (metIn clauses name) := by
  -- as for the price of a flip, the induction is over the clauses
  induction clauses generalizing first with
  | nil => rfl
  | cons c cs ih =>
      have hnext : ∀ k d, cs[k]? = some d → weights[first + 1 + k]? = some d.weight := by
        intro k d hk
        rw [Nat.add_assoc, Nat.add_comm 1 k]
        exact hread (k + 1) d hk
      have hrest := ih (Nat.succ_pos first) hnext
      rw [occurrencesFrom_cons, metIn, List.filterMap_cons]
      cases hp : c.polarities[name]? with
      | none => exact hrest
      | some positive =>
          have hslot : weights[first]? = some c.weight := hread 0 c rfl
          have hweight : weightOf weights ⟨first, positive⟩ = .ok c.weight := by
            simp only [weightOf, if_neg hfirst.ne', hslot]
          rw [Option.map_some, Option.toList_some, List.singleton_append, List.mapM_cons, hweight]
          exact bind_eq_ok_iff.2 ⟨_, rfl, bind_eq_ok_iff.2 ⟨_, hrest, rfl⟩⟩

end Bounds

namespace Model

variable {m : Model} {active : List Clause}

/-- **The sides of a variable, in terms of the active clauses.** -/
theorem Encodes.sides_eq_ok (he : m.Encodes active) (name : Nat) :
    Bounds.sides m.encoding.weights (occurrencesFrom 1 active name) =
      .ok (sidesOf active name) := by
  have hread : ∀ k c, active[k]? = some c → m.encoding.weights[1 + k]? = some c.weight := by
    intro k c hk
    rw [Nat.add_comm 1 k]
    exact he.getElem?_weights hk
  have hpositive := Bounds.map_filter_metIn active name true
  have hnegative := Bounds.map_filter_metIn active name false
  simp only [beq_true, beq_false] at hpositive hnegative
  rw [Bounds.sides, Bounds.mapM_weightOf name Nat.one_pos hread, sidesOf, ← hpositive, ← hnegative]
  rfl

/-- What is computed from the sides of every variable. -/
private theorem Encodes.mapM_sides (he : m.Encodes active) (g : Bounds.Sides → Float) :
    (m.encoding.affected.toList.mapM fun occurrences => do
      return g (← Bounds.sides m.encoding.weights occurrences)) =
      .ok ((distinctNames active).map fun name => g (sidesOf active name)) := by
  rw [he.affected_eq, List.mapM_map]
  refine mapM_eq_ok_map ?_
  intro name _
  rw [Function.comp_apply, he.sides_eq_ok name]
  rfl

/-- **The largest change**, variable by variable. -/
theorem Encodes.maxDifference_eq (he : m.Encodes active) :
    m.maxDifference = .ok (((distinctNames active).map fun name =>
      (sidesOf active name).largest).foldl Weight.larger 0.0) := by
  rw [maxDifference, Bounds.maxDifference, he.mapM_sides (·.largest)]
  rfl

/-- **The smallest change**, variable by variable. -/
theorem Encodes.minDifference_eq (he : m.Encodes active) :
    m.minDifference = .ok (
      let least := ((distinctNames active).map fun name =>
        (sidesOf active name).smallest).foldl Weight.smaller Decimal.infinity
      if least.isFinite then least else 0.0) := by
  rw [minDifference, Bounds.minDifference, he.mapM_sides (·.smallest)]
  rfl

end Model

end WeightedSat
