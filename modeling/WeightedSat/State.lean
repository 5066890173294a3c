import WeightedSat.Counter

/-!
**States of local search.**

A state is an assignment of truth values to the simulated variables together with, for every
clause, the number of its true literals.  Clauses are numbered from one; the counter in slot zero
is not used.

Main definitions:

* `WeightedSat.State` — assignment and counters;
* `WeightedSat.State.value`, `WeightedSat.State.counter`, `WeightedSat.State.isSatisfied` — reading
  a state;
* `WeightedSat.State.unsatisfiedCount` — how many clauses have no true literal;
* `WeightedSat.stepCounter` — one step of one counter;
* `WeightedSat.memoryEstimate` — the bytes that a state takes.
-/

set_option relaxedAutoImplicit false
set_option autoImplicit false

namespace WeightedSat

/-- An assignment with the number of true literals of every clause. -/
structure State where
  /-- The values of the simulated variables. -/
  assignment : Array Bool
  /-- The numbers of true literals by clause number. -/
  counters : Array Nat
deriving DecidableEq

namespace State

/-- The value of a variable. -/
def value (s : State) (index : Nat) : Except Fault Bool :=
  match s.assignment[index]? with
  | some b => .ok b
  | none => .error (.unknownVariable index)

/-- The number of true literals of a clause. -/
def counter (s : State) (number : Nat) : Except Fault Nat :=
  if number = 0 then .error .reservedClause
  else
    match s.counters[number]? with
    | some n => .ok n
    | none => .error (.unknownClause number)

/-- Whether a clause has a true literal. -/
def isSatisfied (s : State) (number : Nat) : Except Fault Bool := do
  return 0 < (← s.counter number)

/-- The counters of the clauses, in order. -/
def clauseCounters (s : State) : List Nat :=
  s.counters.toList.drop 1

/-- How many clauses have no true literal. -/
def unsatisfiedCount (s : State) : Nat :=
  s.clauseCounters.countP (· = 0)

end State

/-! ### Counters -/

/-- One step of the counter of a clause, up or down. -/
def stepCounter (width : CounterWidth) (counters : Array Nat) (number : Nat) (up : Bool) :
    Except Fault (Array Nat) :=
  match counters[number]? with
  | none => .error (.unknownClause number)
  | some n => (width.step up n).map fun n => counters.setIfInBounds number n

/-! ### Memory -/

/-- One more than the greatest size in bytes. -/
def sizeLimit : Nat := wordCount 64

/-- The bytes that the assignment of a state takes: one for each variable. -/
def assignmentEstimate (variableCount : Nat) : Nat := variableCount

/-- The bytes that a state takes: its assignment and a counter for each clause. -/
def memoryEstimate (width : CounterWidth) (variableCount clauseCount : Nat) :
    Except Fault Nat :=
  let counters := width.bytes * clauseCount
  let bytes := counters + assignmentEstimate variableCount
  if counters < sizeLimit ∧ bytes < sizeLimit then .ok bytes else .error .sizeOverflow

end WeightedSat
