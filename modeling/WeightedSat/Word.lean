/-!
**Words of a fixed width.**

How many numbers a word of a given number of bits can hold, and which integers are signed numbers
of that width.

Main definitions:

* `WeightedSat.wordCount` — the number of words of a width;
* `WeightedSat.FitsSigned` — an integer is a signed number of a width.

Main results:

* `WeightedSat.fitsSigned_thirtyTwo`, `WeightedSat.fitsSigned_sixtyFour` — the bounds of the two
  widths in use, as numerals.
-/

set_option relaxedAutoImplicit false
set_option autoImplicit false

namespace WeightedSat

/-- The number of words of a given number of bits, a power of two. -/
def wordCount (bits : Nat) : Nat :=
  Nat.pow 2 bits

/-- An integer is a signed number of a given number of bits: half of the words denote negative
numbers. -/
def FitsSigned (bits : Nat) (n : Int) : Prop :=
  -(wordCount (bits - 1) : Int) ≤ n ∧ n < wordCount (bits - 1)

instance (bits : Nat) (n : Int) : Decidable (FitsSigned bits n) :=
  inferInstanceAs (Decidable (_ ∧ _))

theorem fitsSigned_thirtyTwo {n : Int} :
    FitsSigned 32 n ↔ -2147483648 ≤ n ∧ n < 2147483648 :=
  Iff.rfl

theorem fitsSigned_sixtyFour {n : Int} :
    FitsSigned 64 n ↔ -9223372036854775808 ≤ n ∧ n < 9223372036854775808 :=
  Iff.rfl

end WeightedSat
