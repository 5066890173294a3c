import WeightedSat.Word

/-!
**Numerals.**

Whole numbers written in decimal: digits without separators, after an optional sign.

Main definitions:

* `WeightedSat.Text.digits` — the decimal digits of a number;
* `WeightedSat.Text.ofNat`, `WeightedSat.Text.ofInt` — a number as text;
* `WeightedSat.Text.natValue` — the number that digits denote;
* `WeightedSat.Text.readNat?` — a number with an optional plus sign;
* `WeightedSat.Text.readInt?` — a number with an optional sign of either kind;
* `WeightedSat.Text.readWord?`, `WeightedSat.Text.readSigned?` — the same, refused where a width
  of so many bits cannot hold the number.
-/

set_option relaxedAutoImplicit false
set_option autoImplicit false

namespace WeightedSat.Text

/-! ### Writing -/

/-- The decimal digits of a number, most significant first. -/
def digits (n : Nat) : List Char :=
  Nat.toDigits 10 n

/-- A natural number as text. -/
def ofNat (n : Nat) : String :=
  String.ofList (digits n)

/-- The characters of an integer: a minus sign in front of negative ones only. -/
def signedDigits (n : Int) : List Char :=
  if n < 0 then '-' :: digits n.natAbs else digits n.natAbs

/-- An integer as text. -/
def ofInt (n : Int) : String :=
  String.ofList (signedDigits n)

/-! ### Reading -/

/-- Whether a character is a decimal digit; the grammars of numbers admit the ASCII ones only. -/
def isDigit (c : Char) : Bool :=
  '0' ≤ c && c ≤ '9'

/-- The value of one digit. -/
def digitValue (c : Char) : Nat :=
  c.toNat - 48

/-- The number that digits denote, most significant first. -/
def natValue (ds : List Char) : Nat :=
  ds.foldl (fun n d => 10 * n + digitValue d) 0

/-- The number written by one or more digits and nothing else. -/
def readDigits? (ds : List Char) : Option Nat :=
  if ds ≠ [] ∧ ds.all isDigit then some (natValue ds) else none

/-- A natural number, with an optional plus sign. -/
def readNat? : List Char → Option Nat
  | '+' :: ds => readDigits? ds
  | ds => readDigits? ds

/-- An integer, with an optional sign. -/
def readInt? : List Char → Option Int
  | '-' :: ds => (readDigits? ds).map fun n => -(n : Int)
  | '+' :: ds => (readDigits? ds).map fun n => (n : Int)
  | ds => (readDigits? ds).map fun n => (n : Int)

/-- An integer that is a signed number of a given number of bits. -/
def readSigned? (bits : Nat) (text : List Char) : Option Int :=
  (readInt? text).filter (FitsSigned bits ·)

/-- A natural number that is a word of a given number of bits. -/
def readWord? (bits : Nat) (text : List Char) : Option Nat :=
  (readNat? text).filter (· < wordCount bits)

end WeightedSat.Text
