import Std.Data.TreeMap
import WeightedSat.Error
import WeightedSat.Literal

/-!
**Weighted clauses.**

A clause is a disjunction of literals with a weight, the price of leaving it unsatisfied.
Literals may repeat and stand in any order.

Main definitions:

* `WeightedSat.Clause` — weight and literals;
* `WeightedSat.Clause.isSatisfiedBy` — truth under a valuation of the names;
* `WeightedSat.Clause.isTautology` — whether some literal stands beside its negation;
* `WeightedSat.Clause.checkNames` — the strict form that files require;
* `WeightedSat.Clause.polarities` — the variables of a clause with their polarity.

Main results:

* `WeightedSat.Clause.isTautology_eq_true_iff` — the tautology test in terms of membership.
-/

set_option relaxedAutoImplicit false
set_option autoImplicit false

namespace WeightedSat

/-- A disjunction of literals with a weight. -/
structure Clause where
  /-- The price of leaving the clause unsatisfied. -/
  weight : Float
  /-- The literals, as written. -/
  literals : List Literal
deriving BEq

/-- The greatest name whose literals of both polarities are signed numbers of thirty-two bits. -/
def maxName : Nat := wordCount 31 - 1

namespace Clause

/-- The clause with the given signed literals; zero is refused. -/
def ofSigned (weight : Float) (ids : List Int) : Except Error Clause := do
  let literals ← ids.mapM fun x =>
    match Literal.ofSigned? x with
    | some l => .ok l
    | none => .error (.unnegatableName 0)
  return ⟨weight, literals⟩

/-- The names of the variables, in the order of the literals. -/
def names (c : Clause) : List Nat :=
  c.literals.map (·.name)

/-- Whether some literal is true when the variables have the given values. -/
def isSatisfiedBy (c : Clause) (value : Nat → Bool) : Bool :=
  c.literals.any fun l => l.eval (value l.name)

/-- The literals of a clause as a set. -/
def literalSet (c : Clause) : Std.TreeSet Literal :=
  .ofList c.literals

/-- Whether some literal stands beside its negation, so that the clause is always true. -/
def isTautology (c : Clause) : Bool :=
  let set := c.literalSet
  c.literals.any fun l => set.contains l.negate

theorem mem_literalSet {c : Clause} {l : Literal} : l ∈ c.literalSet ↔ l ∈ c.literals := by
  simp [literalSet, Std.TreeSet.mem_ofList]

/-- A clause is a tautology exactly when it holds a literal and its negation. -/
theorem isTautology_eq_true_iff (c : Clause) :
    c.isTautology = true ↔ ∃ l ∈ c.literals, l.negate ∈ c.literals := by
  simp only [isTautology, List.any_eq_true, ← Std.TreeSet.mem_iff_contains, mem_literalSet]

/-! ### The strict form -/

/-- Whether a name has literals of both polarities. -/
def admitsName (name : Nat) : Bool :=
  0 < name && name ≤ maxName

/-- Goes through the literals, `seen` being those that came before. -/
def checkLiterals (seen : Std.TreeSet Literal) : List Literal → Except Error Unit
  | [] => .ok ()
  | l :: ls =>
      if !admitsName l.name then .error (.unnegatableName l.name)
      else if seen.contains l then .error (.repeatedLiteral l.toSigned)
      else if seen.contains l.negate then .error (.bothPolarities l.name)
      else checkLiterals (seen.insert l) ls

/-- The strict form of a clause: it is not empty, and names no variable twice. -/
def checkNames (c : Clause) : Except Error Unit :=
  if c.literals.isEmpty then .error .emptyClause else checkLiterals ∅ c.literals

/-! ### The variables of a clause -/

/-- The variables of a clause, each with the polarity of its first literal. -/
def polarities (c : Clause) : Std.TreeMap Nat Bool :=
  c.literals.foldl (fun t l => t.insertIfNew l.name l.positive) ∅

/-- The number of distinct variables. -/
def width (c : Clause) : Nat :=
  c.polarities.size

end Clause

end WeightedSat
