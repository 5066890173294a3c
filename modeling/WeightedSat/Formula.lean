import WeightedSat.Clause

/-!
**Formulas.**

A formula is a list of weighted clauses as a clause file holds it: with the dialect it is written
in and the threshold of a weighted problem line.

Main definitions:

* `WeightedSat.Dialect` — plain or weighted;
* `WeightedSat.Formula` — the contents of a clause file;
* `WeightedSat.Formula.names` — the names that occur, ascending and without repetition;
* `WeightedSat.Formula.unsatisfiedWeight` — the price of a valuation.

Main results:

* `WeightedSat.mem_distinctNames` — the listed names are exactly those that occur.
-/

set_option relaxedAutoImplicit false
set_option autoImplicit false

namespace WeightedSat

/-- The two dialects of clause files. -/
inductive Dialect where
  /-- Clauses without weights; each weighs one. -/
  | plain
  /-- Every clause starts with its weight. -/
  | weighted
deriving DecidableEq

/-- The word for a dialect in a problem line. -/
def Dialect.keyword : Dialect → String
  | .plain => "cnf"
  | .weighted => "wcnf"

/-- The names that occur in clauses, ascending and without repetition. -/
def distinctNames (clauses : List Clause) : List Nat :=
  (Std.TreeSet.ofList (clauses.flatMap Clause.names) compare).toList

theorem mem_distinctNames {clauses : List Clause} {name : Nat} :
    name ∈ distinctNames clauses ↔ ∃ c ∈ clauses, name ∈ c.names := by
  simp [distinctNames, Std.TreeSet.mem_ofList, Clause.names]

/-- The contents of a clause file. -/
structure Formula where
  /-- The dialect it is written in. -/
  dialect : Dialect
  /-- The greatest name that occurs, zero if none does. -/
  largestName : Nat
  /-- The threshold of a weighted problem line. -/
  top : Option Float
  /-- The clauses in order. -/
  clauses : List Clause
deriving BEq

namespace Formula

/-- The greatest name of a list of clauses, zero if there is none. -/
def largestNameOf (clauses : List Clause) : Nat :=
  (clauses.flatMap Clause.names).foldl max 0

/-- The formula with the given clauses. -/
def ofClauses (dialect : Dialect) (top : Option Float) (clauses : List Clause) : Formula :=
  ⟨dialect, largestNameOf clauses, top, clauses⟩

/-- The names that occur, ascending and without repetition. -/
def names (f : Formula) : List Nat :=
  distinctNames f.clauses

/-- **The price of a valuation**: the weights of the unsatisfied clauses, added in order.  The sum
of no weights is negative zero. -/
def unsatisfiedWeight (f : Formula) (value : Nat → Bool) : Float :=
  ((f.clauses.filter (!·.isSatisfiedBy value)).map (·.weight)).foldl (· + ·) (-0.0)

end Formula

end WeightedSat
