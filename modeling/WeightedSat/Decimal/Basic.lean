import WeightedSat.Text.Numeral

/-!
**Decimal numbers and the floating-point numbers nearest to them.**

A decimal is a natural number times a power of ten.  Every finite floating-point number is a
decimal, and every decimal has a nearest floating-point number; between the two stands the
shortest decimal that still has a given number as its nearest.

Main definitions:

* `WeightedSat.Decimal` — digits and the power of ten that scales them;
* `WeightedSat.Decimal.toFloat` — the nearest floating-point number, a tie going to the even one;
* `WeightedSat.Decimal.ofBinary` — the decimal expansion of a binary fraction;
* `WeightedSat.Decimal.shortest` — the decimal with the fewest digits that reads back.

Main results:

* `WeightedSat.Decimal.toFloat_of_reading` — a decimal found by the search reads back.
-/

set_option relaxedAutoImplicit false
set_option autoImplicit false

namespace WeightedSat

/-- The number `digits * 10 ^ exponent`. -/
structure Decimal where
  /-- The digits, as one natural number. -/
  digits : Nat
  /-- The power of ten that scales them. -/
  exponent : Int
deriving DecidableEq

namespace Decimal

/-- **The nearest floating-point number**, a tie going to the even one; infinity beyond the
range. -/
def toFloat (d : Decimal) : Float :=
  Float.ofModel (Float.Model.ofScientific d.digits d.exponent)

/-- Positive infinity. -/
def infinity : Float := 1.0 / 0.0

/-- What is not a number. -/
def notANumber : Float := 0.0 / 0.0

/-- The number of digits. -/
def size (d : Decimal) : Nat :=
  (Text.digits d.digits).length

/-! ### Decimal expansion -/

/-- The decimal expansion of `m * 2 ^ q`, which is finite because ten is a multiple of two. -/
def ofBinary (m : Nat) (q : Int) : Decimal :=
  if 0 ≤ q then ⟨m * Nat.pow 2 q.toNat, 0⟩ else ⟨m * Nat.pow 5 (-q).toNat, q⟩

/-- How many of the last digits are zeros. -/
def trailingZeros (d : Decimal) : Nat :=
  ((Text.digits d.digits).reverse.takeWhile (· = '0')).length

/-- The same number without zeros at the end of its digits. -/
def trim (d : Decimal) : Decimal :=
  ⟨d.digits / Nat.pow 10 d.trailingZeros, d.exponent + d.trailingZeros⟩

/-! ### The shortest decimal that reads back -/

/-- Which of two equally near decimals is taken. -/
inductive Tie where
  /-- The greater one. -/
  | up
  /-- The one whose last digit is even. -/
  | even
deriving DecidableEq

/-- Whether the upper of two neighbouring grid points is taken: `rest` out of `unit` is how far
the number lies above the lower point, whose digits are `low`. -/
def Tie.takesUpper (tie : Tie) (low rest unit : Nat) : Bool :=
  if 2 * rest = unit then
    match tie with
    | .up => true
    | .even => low % 2 = 1
  else unit < 2 * rest

/-- The decimal with `n` digits that is nearest to the expansion `d` among its two neighbours on
that grid which have `x` as their nearest floating-point number, if one has.  A carry may leave
zeros at the end of the upper neighbour; they are dropped. -/
def reading? (tie : Tie) (x : Float) (d : Decimal) (n : Nat) : Option Decimal :=
  let cut := d.size - n
  let unit := Nat.pow 10 cut
  let low : Decimal := ⟨d.digits / unit, d.exponent + cut⟩
  let high := trim ⟨d.digits / unit + 1, d.exponent + cut⟩
  if low.toFloat = x then
    if high.toFloat = x ∧ tie.takesUpper low.digits (d.digits % unit) unit then some high
    else some low
  else if high.toFloat = x then some high
  else none

/-- **The shortest decimal that reads back.**  `d` is the expansion of the positive number `x`;
seventeen digits are enough for every floating-point number, and the expansion itself stands in
should they not be. -/
def shortest (tie : Tie) (x : Float) (d : Decimal) : Decimal :=
  ((List.range' 1 17).findSome? (reading? tie x d)).getD d

/-- A decimal found by the search reads back. -/
theorem toFloat_of_reading {tie : Tie} {x : Float} {d e : Decimal} {n : Nat}
    (h : reading? tie x d n = some e) : e.toFloat = x := by
  simp only [reading?] at h
  split at h
  · rename_i hlow
    split at h
    · rename_i hhigh
      cases h
      exact hhigh.1
    · cases h
      exact hlow
  · split at h
    · rename_i hhigh
      cases h
      exact hhigh
    · cases h

end Decimal

end WeightedSat
