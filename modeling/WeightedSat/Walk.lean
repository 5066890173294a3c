import WeightedSat.Model
import WeightedSat.Random.Words

/-!
**Random states and random walks.**

What is drawn comes from a source of words given by the caller, so that runs can be repeated; the
source is handed back also where there is no result.

Main definitions:

* `WeightedSat.Model.randomState` — a state with a random assignment;
* `WeightedSat.Model.randomVariable` — a variable to flip, each with the same chance;
* `WeightedSat.Model.walk` — a number of flips, each drawn at random.
-/

set_option relaxedAutoImplicit false
set_option autoImplicit false

namespace WeightedSat.Model

variable {σ : Type} [WordSource σ]

/-- **A state with a random assignment**; nothing is drawn for a model that is not configured. -/
def randomState (m : Model) (source : σ) : Except Error State × σ :=
  if m.isConfigured then
    let (assignment, source) := WordSource.coins m.variableCount [] source
    (m.startFrom assignment, source)
  else (.error .notConfigured, source)

/-- **A variable to flip**, each with the same chance.  Without variables this is zero, drawn from
nothing, which is the index of none. -/
def randomVariable (m : Model) (source : σ) : Nat × σ :=
  if m.variableCount = 0 then (0, source) else WordSource.below m.variableCount source

/-- Flips a variable; a greedy walk flips it only if the price does not rise. -/
def walkStep (m : Model) (greedy : Bool) (s : State) (index : Nat) : Except Fault State := do
  if greedy then
    if (← m.costDifference s index) ≤ 0.0 then m.flip s index else return s
  else m.flip s index

/-- **A walk of `n` flips drawn at random**, giving the variables drawn after those already
`picked`, the last one first. -/
def walk (m : Model) (greedy : Bool) (n : Nat) (picked : List Nat) (s : State) (source : σ) :
    Except Fault (List Nat × State) × σ :=
  match n with
  | 0 => (.ok (picked.reverse, s), source)
  | n + 1 =>
      let (index, source) := m.randomVariable source
      match m.walkStep greedy s index with
      | .ok s => m.walk greedy n (index :: picked) s source
      | .error fault => (.error fault, source)

end WeightedSat.Model
