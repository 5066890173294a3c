import WeightedSat.Decimal.Basic

/-!
**Reading a floating-point number.**

An optional sign, then either a word for infinity or for what is not a number, in any letter case,
or digits with an optional point and an optional power of ten.  At least one digit stands before
or after the point, and at least one in the power.

Main definitions:

* `WeightedSat.Decimal.read?` — the decimal that unsigned digits denote;
* `WeightedSat.Decimal.readFloat?` — the floating-point number that a text denotes.
-/

set_option relaxedAutoImplicit false
set_option autoImplicit false

namespace WeightedSat.Decimal

/-- The part of a text before the first character that is no digit, and the part from there on. -/
def spanDigits (text : List Char) : List Char × List Char :=
  (text.takeWhile Text.isDigit, text.dropWhile Text.isDigit)

/-- The power of ten after the digits: nothing at all, or a mark and an integer. -/
def readPower? : List Char → Option Int
  | [] => some 0
  | 'e' :: text => Text.readInt? text
  | 'E' :: text => Text.readInt? text
  | _ => none

/-- The fraction digits after the whole ones, and what follows them. -/
def spanFraction : List Char → List Char × List Char
  | '.' :: text => spanDigits text
  | text => ([], text)

/-- **The decimal that unsigned digits denote.** -/
def read? (text : List Char) : Option Decimal :=
  let whole := (spanDigits text).1
  let fraction := (spanFraction (spanDigits text).2).1
  if whole = [] ∧ fraction = [] then none
  else
    (readPower? (spanFraction (spanDigits text).2).2).map fun power =>
      ⟨Text.natValue (whole ++ fraction), power - fraction.length⟩

/-- The value of an unsigned text. -/
def readUnsigned? (text : List Char) : Option Float :=
  let word := text.map Char.toLower
  if word = "inf".toList ∨ word = "infinity".toList then some infinity
  else if word = "nan".toList then some notANumber
  else (read? text).map toFloat

/-- **The floating-point number that a text denotes.** -/
def readFloat? : List Char → Option Float
  | '-' :: text => (readUnsigned? text).map fun x => -x
  | '+' :: text => readUnsigned? text
  | text => readUnsigned? text

end WeightedSat.Decimal
