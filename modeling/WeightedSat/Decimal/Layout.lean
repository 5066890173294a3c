import WeightedSat.Decimal.Basic

/-!
**How a floating-point number is written.**

The digits are always the fewest that read back; a layout says how they are arranged.

Main definitions:

* `WeightedSat.Decimal.Layout` — the decisions of a format;
* `WeightedSat.Decimal.Layout.write` — a number in that format;
* `WeightedSat.Decimal.Layout.plain` — the format of clause files and messages.
-/

set_option relaxedAutoImplicit false
set_option autoImplicit false

namespace WeightedSat.Decimal

/-- The decisions of a number format. -/
structure Layout where
  /-- Which of two equally near shortest decimals is written. -/
  tie : Tie
  /-- Whether a whole number gets the fraction `.0`. -/
  wholeFraction : Bool
  /-- Whether a number is written without an exponent, by the power of ten of its first digit. -/
  positional : Int → Bool
  /-- The text of positive infinity. -/
  infinity : String
  /-- The text of negative infinity. -/
  negativeInfinity : String
  /-- The text of what is not a number. -/
  notANumber : String

namespace Layout

/-- Clause files and messages: never an exponent, no fraction on whole numbers, and of two equally
near decimals the greater. -/
def plain : Layout where
  tie := .up
  wholeFraction := false
  positional := fun _ => true
  infinity := "inf"
  negativeInfinity := "-inf"
  notANumber := "NaN"

/-- The fraction of a whole number. -/
def wholeTail (layout : Layout) : List Char :=
  if layout.wholeFraction then ['.', '0'] else []

/-- Digits written out around the decimal point. -/
def writePositional (layout : Layout) (d : Decimal) : List Char :=
  let ds := Text.digits d.digits
  if 0 ≤ d.exponent then
    ds ++ List.replicate d.exponent.toNat '0' ++ layout.wholeTail
  else
    let places := (-d.exponent).toNat
    if places < ds.length then
      ds.take (ds.length - places) ++ '.' :: ds.drop (ds.length - places)
    else
      ['0', '.'] ++ List.replicate (places - ds.length) '0' ++ ds

/-- Digits with the point after the first one, then the power of ten with its sign. -/
def writeScientific (d : Decimal) (leading : Int) : List Char :=
  let ds := Text.digits d.digits
  let sign := if leading < 0 then '-' else '+'
  ds.take 1 ++ (if ds.length = 1 then [] else '.' :: ds.drop 1) ++
    'e' :: sign :: Text.digits leading.natAbs

/-- A positive decimal. -/
def writeDecimal (layout : Layout) (d : Decimal) : List Char :=
  let leading := d.exponent + d.size - 1
  if layout.positional leading then layout.writePositional d else writeScientific d leading

/-- The minus sign of a negative number. -/
def signMark : Float.Model.UnpackedFloat.Sign → List Char
  | .positive => []
  | .negative => ['-']

/-- **A floating-point number as text.** -/
def write (layout : Layout) (x : Float) : List Char :=
  match x.toModel.unpack with
  | .notANumber => layout.notANumber.toList
  | .infinity .positive => layout.infinity.toList
  | .infinity .negative => layout.negativeInfinity.toList
  | .zero sign => signMark sign ++ '0' :: layout.wholeTail
  | .finite sign m q _ =>
      let size := match sign with
        | .positive => x
        | .negative => -x
      signMark sign ++ layout.writeDecimal (Decimal.shortest layout.tie size (.ofBinary m q))

end Layout

end WeightedSat.Decimal
