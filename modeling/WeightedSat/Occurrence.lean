/-!
**Occurrences of a variable in clauses.**

Clauses are numbered from one.  An occurrence is the number of a clause with the polarity of the
variable there; outside the library it is a signed number, like a literal.

Main definitions:

* `WeightedSat.Occurrence` — a clause number with a polarity;
* `WeightedSat.Occurrence.toSigned`, `WeightedSat.Occurrence.ofSigned` — the signed form.
-/

set_option relaxedAutoImplicit false
set_option autoImplicit false

namespace WeightedSat

/-- An occurrence of a variable in a clause. -/
structure Occurrence where
  /-- The number of the clause. -/
  clause : Nat
  /-- Whether the variable occurs as itself. -/
  positive : Bool
deriving DecidableEq

namespace Occurrence

/-- The signed form: the number of the clause, negative where the variable is negated. -/
def toSigned (o : Occurrence) : Int :=
  if o.positive then o.clause else -o.clause

/-- The occurrence with a given signed form. -/
def ofSigned (x : Int) : Occurrence :=
  ⟨x.natAbs, 0 < x⟩

end Occurrence

end WeightedSat
