import WeightedSat.Formula

/-!
**Writing clause files.**

The problem line comes first and counts the distinct variables, not the greatest name; then each
clause stands on a line of its own, with its weight in front in the weighted dialect.

Main definitions:

* `WeightedSat.Dimacs.headerChars` — the problem line;
* `WeightedSat.Dimacs.clauseChars` — the line of a clause;
* `WeightedSat.Dimacs.render` — a formula as text.
-/

set_option relaxedAutoImplicit false
set_option autoImplicit false

namespace WeightedSat.Dimacs

/-- The threshold at the end of a problem line; only the weighted dialect has one. -/
def topChars : Dialect → Option Float → List Char
  | .weighted, some top => ' ' :: Decimal.Layout.plain.write top
  | _, _ => []

/-- The problem line with its end. -/
def headerChars (f : Formula) : List Char :=
  ['p', ' '] ++ f.dialect.keyword.toList ++ ' ' :: Text.digits f.names.length ++
    ' ' :: Text.digits f.clauses.length ++ topChars f.dialect f.top ++ ['\n']

/-- The weight in front of a clause. -/
def weightChars : Dialect → Float → List Char
  | .weighted, w => Decimal.Layout.plain.write w ++ [' ']
  | .plain, _ => []

/-- The line of a clause with its end. -/
def clauseChars (dialect : Dialect) (c : Clause) : List Char :=
  weightChars dialect c.weight ++
    c.literals.flatMap (fun l => Text.signedDigits l.toSigned ++ [' ']) ++ ['0', '\n']

/-- A formula as characters. -/
def renderChars (f : Formula) : List Char :=
  headerChars f ++ f.clauses.flatMap (clauseChars f.dialect)

/-- **A formula as text.** -/
def render (f : Formula) : String :=
  String.ofList (renderChars f)

end WeightedSat.Dimacs
