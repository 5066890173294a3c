import WeightedSat.Bounds
import WeightedSat.Encoding
import WeightedSat.State

/-!
**Models: what local search runs on.**

A model is a counter width together with the encoding it has been configured with, if any.  The
price of a state is the total weight of its unsatisfied clauses; the price of a flip is computed
from the counters of the clauses it touches alone.

Main definitions:

* `WeightedSat.Model` — width and encoding;
* `WeightedSat.Model.configure`, `WeightedSat.Model.ofClauses`, `WeightedSat.Model.withWidth` —
  building a model;
* `WeightedSat.Model.start`, `WeightedSat.Model.startFrom` — building a state;
* `WeightedSat.Model.flip`, `WeightedSat.Model.flips` — moving a state;
* `WeightedSat.Model.cost`, `WeightedSat.Model.costDifference` — the price of a state and of a flip;
* `WeightedSat.Model.render` — the values of all names.
-/

set_option relaxedAutoImplicit false
set_option autoImplicit false

namespace WeightedSat

/-- The width of the counters, and the encoding once there is one. -/
structure Model where
  /-- The width of the counters of its states. -/
  width : CounterWidth
  /-- The encoding; none before the model is configured. -/
  encoding? : Option Encoding
deriving DecidableEq

/-- A fault as an error. -/
def Error.ofFault {α : Type} (result : Except Fault α) : Except Error α :=
  result.mapError .fault

namespace Model

/-- The kind of model that configurations are for. -/
def identifier : String := "maxsat"

/-- The version of the model that configurations are for. -/
def version : String := "1.0"

/-! ### Configuration -/

/-- A model that has not been configured. -/
def unconfigured (width : CounterWidth) : Model := ⟨width, none⟩

/-- Whether the model has been configured. -/
def isConfigured (m : Model) : Bool :=
  m.encoding?.isSome

/-- The encoding, empty before the model is configured. -/
def encoding (m : Model) : Encoding :=
  m.encoding?.getD .empty

/-- The model with the given encoding, if its counters can count the widest clause. -/
def ofEncoding (width : CounterWidth) (e : Encoding) : Except Error Model :=
  if width.capacity < e.maxWidth then .error (.counterCapacity e.maxWidth width.capacity)
  else .ok ⟨width, some e⟩

/-- **Configures a model for a list of clauses**, whatever it was configured for before. -/
def configure (m : Model) (clauses : List Clause) : Except Error Model := do
  ofEncoding m.width (← Encoding.build clauses)

/-- The model for a list of clauses. -/
def ofClauses (width : CounterWidth) (clauses : List Clause) : Except Error Model :=
  (unconfigured width).configure clauses

/-- The same model with counters of another width. -/
def withWidth (m : Model) (width : CounterWidth) : Except Error Model :=
  match m.encoding? with
  | none => .error .notConfigured
  | some e => ofEncoding width e

/-! ### Reading a model -/

/-- The number of simulated variables. -/
def variableCount (m : Model) : Nat :=
  m.encoding.variableCount

/-- The number of active clauses. -/
def clauseCount (m : Model) : Nat :=
  m.encoding.clauseCount

/-- Whether there is no simulated variable. -/
def isEmpty (m : Model) : Bool :=
  m.encoding.names.isEmpty

/-- The occurrences of a variable. -/
def affected (m : Model) (index : Nat) : Except Fault (List Occurrence) :=
  match m.encoding.affected[index]? with
  | some occurrences => .ok occurrences
  | none => .error (.unknownVariable index)

/-- The weight of a clause; the unused slot zero weighs nothing. -/
def weight (m : Model) (number : Nat) : Except Fault Float :=
  match m.encoding.weights[number]? with
  | some w => .ok w
  | none => .error (.unknownClause number)

/-- The number of flips after which each variable has been picked about once. -/
def sweepSize (m : Model) : Nat :=
  m.variableCount

/-- The bytes that a state takes. -/
def stateMemory (m : Model) : Except Fault Nat :=
  memoryEstimate m.width m.variableCount m.clauseCount

/-- The bytes that the assignment of a state takes. -/
def assignmentMemory (m : Model) : Nat :=
  assignmentEstimate m.variableCount

/-- The largest change of price a single flip can cause. -/
def maxDifference (m : Model) : Except Fault Float :=
  Bounds.maxDifference m.encoding.affected.toList m.encoding.weights

/-- The smallest change of price other than zero that a single flip is expected to cause. -/
def minDifference (m : Model) : Except Fault Float :=
  Bounds.minDifference m.encoding.affected.toList m.encoding.weights

/-! ### Flips -/

/-- Counts the change of one literal: up when it becomes true, down when it becomes false. -/
def touch (m : Model) (value : Bool) (counters : Array Nat) (o : Occurrence) :
    Except Fault (Array Nat) :=
  stepCounter m.width counters o.clause (o.positive != value)

/-- **Flips a variable.** -/
def flip (m : Model) (s : State) (index : Nat) : Except Fault State := do
  let value ← s.value index
  let occurrences ← m.affected index
  let ⟨assignment, counters⟩ := s
  let counters ← occurrences.foldlM (m.touch value) counters
  return ⟨assignment.setIfInBounds index (!value), counters⟩

/-- Flips variables one after the other. -/
def flips (m : Model) (s : State) (indices : List Nat) : Except Fault State :=
  indices.foldlM m.flip s

/-! ### States -/

/-- The encoding of a configured model. -/
def requireEncoding (m : Model) : Except Error Encoding :=
  match m.encoding? with
  | some e => .ok e
  | none => .error .notConfigured

/-- The counters when all variables are false: exactly the negated occurrences are true. -/
def startCounters (m : Model) (e : Encoding) : Except Fault (Array Nat) :=
  (e.affected.toList.flatMap fun occurrences => occurrences.filter (!·.positive)).foldlM
    (fun counters o => stepCounter m.width counters o.clause true)
    (Array.replicate e.weights.size 0)

/-- **The state with all variables false.** -/
def start (m : Model) : Except Error State := do
  let e ← m.requireEncoding
  let counters ← Error.ofFault (m.startCounters e)
  return ⟨Array.replicate e.variableCount false, counters⟩

/-- The indices of the true values. -/
def trueIndices (assignment : List Bool) : List Nat :=
  (assignment.zipIdx.filter (·.1)).map (·.2)

/-- **The state with a given assignment**, reached from the one with all variables false. -/
def startFrom (m : Model) (assignment : List Bool) : Except Error State := do
  let s ← m.start
  if assignment.length ≠ m.variableCount then
    throw (.wrongAssignment assignment.length m.variableCount)
  Error.ofFault (m.flips s (trueIndices assignment))

/-! ### Prices -/

/-- **The price of a state**: the weights of the clauses without a true literal, added in order.
The sum of no weights is negative zero. -/
def cost (m : Model) (s : State) : Except Fault Float :=
  if m.encoding.weights.size ≠ s.counters.size then .error .clauseCountMismatch
  else
    let clauses := (m.encoding.weights.toList.zip s.counters.toList).drop 1
    .ok (((clauses.filter (·.2 = 0)).map (·.1)).foldl (· + ·) (-0.0))

/-- What the change of one literal adds to the price: the weight of a clause that loses its last
true literal, less the weight of one that gains its first. -/
def addPrice (m : Model) (s : State) (value : Bool) (price : Float) (o : Occurrence) :
    Except Fault Float := do
  let some count := s.counters[o.clause]? | throw (.unknownClause o.clause)
  if o.positive == value then
    if count = 1 then return price + (← m.weight o.clause) else return price
  else
    if count = 0 then return price - (← m.weight o.clause) else return price

/-- **The price of a flip**: the change of the price of the state, from the counters alone. -/
def costDifference (m : Model) (s : State) (index : Nat) : Except Fault Float := do
  let value ← s.value index
  let occurrences ← m.affected index
  occurrences.foldlM (m.addPrice s value) 0.0

/-- The prices of all flips. -/
def costDifferences (m : Model) (s : State) : Except Fault (List Float) :=
  (List.range m.variableCount).mapM (m.costDifference s)

/-! ### All names -/

/-- **The values of all names**: those of the simulated variables in the order of their names, then
the free ones, which are true. -/
def render (m : Model) (s : State) : Except Error (List (Nat × Bool)) :=
  let e := m.encoding
  if s.assignment.size ≠ e.names.size then .error (.wrongState s.assignment.size e.names.size)
  else .ok (e.names.toList.zip s.assignment.toList ++ e.freeNames.map (·, true))

end Model

end WeightedSat
