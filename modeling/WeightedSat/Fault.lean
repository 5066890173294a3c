/-!
**Faults: operations used outside their domain.**

A fault is not the answer to a bad input but to a call that should not have been made: an index
that no model has, a counter stepped beyond its range, sizes that do not fit a machine word.

Main definitions:

* `WeightedSat.Fault` — the causes;
* `WeightedSat.Fault.message` — their wording.
-/

set_option relaxedAutoImplicit false
set_option autoImplicit false

namespace WeightedSat

/-- A call outside the domain of an operation. -/
inductive Fault where
  /-- No variable has this index. -/
  | unknownVariable (index : Nat)
  /-- No clause has this number. -/
  | unknownClause (number : Nat)
  /-- Clauses are numbered from one; the slot zero stands for none. -/
  | reservedClause
  /-- A counter at its greatest value was incremented. -/
  | counterOverflow
  /-- A counter at zero was decremented. -/
  | counterUnderflow
  /-- A state and a model disagree about the number of clauses. -/
  | clauseCountMismatch
  /-- A size in bytes does not fit a machine word. -/
  | sizeOverflow
deriving DecidableEq

/-- The wording of a fault. -/
def Fault.message : Fault → String
  | .unknownVariable _ => "no such variable"
  | .unknownClause _ => "no such clause"
  | .reservedClause => "clause zero is reserved"
  | .counterOverflow => "counter overflow"
  | .counterUnderflow => "counter underflow"
  | .clauseCountMismatch => "the state belongs to a model with another number of clauses"
  | .sizeOverflow => "size overflow"

end WeightedSat
