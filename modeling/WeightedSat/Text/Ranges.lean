/-!
**Classes of characters given by ranges of code points.**

A table lists the first and the last code point of each range; a character belongs to the class
when one of the ranges holds it.

Main definitions:

* `WeightedSat.Text.RangeTable` — a list of closed ranges;
* `WeightedSat.Text.RangeTable.has` — membership of a character.
-/

set_option relaxedAutoImplicit false
set_option autoImplicit false

namespace WeightedSat.Text

/-- A class of characters: the closed ranges of code points that make it up. -/
abbrev RangeTable := List (Nat × Nat)

/-- Whether one of the ranges holds the character. -/
def RangeTable.has (table : RangeTable) (c : Char) : Bool :=
  table.any fun r => r.1 ≤ c.toNat && c.toNat ≤ r.2

theorem RangeTable.has_iff (table : RangeTable) (c : Char) :
    table.has c = true ↔ ∃ r ∈ table, r.1 ≤ c.toNat ∧ c.toNat ≤ r.2 := by
  simp [RangeTable.has]

end WeightedSat.Text
