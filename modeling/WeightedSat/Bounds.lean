import WeightedSat.Decimal.Basic
import WeightedSat.Fault
import WeightedSat.Occurrence
import WeightedSat.Weight

/-!
**Bounds on the price of one flip.**

A flip of a variable can only change clauses the variable occurs in: those of one polarity may
become unsatisfied, those of the other satisfied.  The largest change is therefore at most the
greater of the two sums of weights.  The smallest change other than zero is estimated by cancelling
the greatest weights of both polarities against each other.

Main definitions:

* `WeightedSat.Bounds.Sides` — the weights a variable meets, by polarity;
* `WeightedSat.Bounds.leastDifference?` — the smallest remainder of the cancellation;
* `WeightedSat.Bounds.maxDifference`, `WeightedSat.Bounds.minDifference` — the two estimates.
-/

set_option relaxedAutoImplicit false
set_option autoImplicit false

namespace WeightedSat.Bounds

/-- The weight of the clause of an occurrence. -/
def weightOf (weights : Array Float) (o : Occurrence) : Except Fault Float :=
  if o.clause = 0 then .error .reservedClause
  else
    match weights[o.clause]? with
    | some w => .ok w
    | none => .error (.unknownClause o.clause)

/-- The weights of the clauses a variable occurs in, by polarity. -/
structure Sides where
  /-- Those where it occurs as itself. -/
  positive : List Float
  /-- Those where it is negated. -/
  negative : List Float

/-- The weights that a list of occurrences meets. -/
def sides (weights : Array Float) (occurrences : List Occurrence) : Except Fault Sides := do
  let met ← occurrences.mapM fun o => do return (o.positive, ← weightOf weights o)
  return ⟨(met.filter (·.1)).map (·.2), (met.filter (!·.1)).map (·.2)⟩

/-! ### The largest change -/

/-- The greater of the two sums of weights. -/
def Sides.largest (s : Sides) : Float :=
  Weight.larger (Weight.total s.positive) (Weight.total s.negative)

/-- **The largest change of price a single flip can cause.** -/
def maxDifference (affected : List (List Occurrence)) (weights : Array Float) :
    Except Fault Float := do
  let largest ← affected.mapM fun occurrences => do return (← sides weights occurrences).largest
  return largest.foldl Weight.larger 0.0

/-! ### The smallest change -/

/-- Keeps the smaller of the remainders other than zero. -/
def improve (best : Option Float) (remainder : Float) : Option Float :=
  if remainder == 0.0 then best
  else
    match best with
    | none => some remainder
    | some b => if remainder < b then some remainder else some b

/-- Cancels the greatest weights of two descending lists against each other.  The remainder goes
back to the side it came from; where nothing remains one of the two weights goes back, to the
side that is shorter.  Every round takes one weight away, so as many rounds as there are weights
are enough. -/
def cancel : (rounds : Nat) → (xs ys : List Float) → (best : Option Float) → Option Float
  | rounds + 1, x :: xs, y :: ys, best =>
      let delta := x - y
      let best := improve best delta.abs
      if 0.0 < delta then cancel rounds (Weight.insertDescending delta xs) ys best
      else if delta < 0.0 then cancel rounds xs (Weight.insertDescending (-delta) ys) best
      else if xs.length < ys.length then cancel rounds (Weight.insertDescending x xs) ys best
      else cancel rounds xs (Weight.insertDescending y ys) best
  | _, _, _, best => best

/-- The smallest weight of a side that has one. -/
def least? : List Float → Option Float
  | [] => none
  | w :: ws => some (ws.foldl Weight.smaller w)

/-- **The smallest remainder of the cancellation**: the smallest weight where one side is empty,
nothing where every cancellation is exact. -/
def leastDifference? (s : Sides) : Option Float :=
  if s.positive.isEmpty then least? s.negative
  else if s.negative.isEmpty then least? s.positive
  else
    cancel (s.positive.length + s.negative.length) (Weight.descending s.positive)
      (Weight.descending s.negative) none

/-- The smallest change a variable is expected to cause. -/
def Sides.smallest (s : Sides) : Float :=
  (leastDifference? s).getD ((s.positive ++ s.negative).foldl Weight.smaller Decimal.infinity)

/-- **The smallest change of price other than zero that a single flip is expected to cause**; zero
when there is no variable. -/
def minDifference (affected : List (List Occurrence)) (weights : Array Float) :
    Except Fault Float := do
  let smallest ← affected.mapM fun occurrences => do return (← sides weights occurrences).smallest
  let least := smallest.foldl Weight.smaller Decimal.infinity
  return if least.isFinite then least else 0.0

end WeightedSat.Bounds
