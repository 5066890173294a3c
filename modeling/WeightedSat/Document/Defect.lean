import WeightedSat.Decimal.Layout
import WeightedSat.Text.Quoted

/-!
**What can be wrong with a model document.**

Main definitions:

* `WeightedSat.Document.numberLayout` — how documents write floating-point numbers;
* `WeightedSat.Document.Found`, `WeightedSat.Document.Expected` — the two sides of a type error;
* `WeightedSat.Document.Defect` — the causes;
* `WeightedSat.Document.Defect.message` — their wording, without the place.
-/

set_option relaxedAutoImplicit false
set_option autoImplicit false

namespace WeightedSat.Document

/-- Documents write a number whose first digit stands between the fifth decimal place and the
sixteenth place before the point without an exponent, always with a fraction; of two equally near
decimals the even one.  What is no finite number is written as `null`. -/
def numberLayout : Decimal.Layout where
  tie := .even
  wholeFraction := true
  positional := fun leading => -5 ≤ leading && leading < 16
  infinity := "null"
  negativeInfinity := "null"
  notANumber := "null"

/-- What stands in a document where something else was expected. -/
inductive Found where
  /-- The word `null`. -/
  | null
  /-- One of the two truth values. -/
  | boolean (value : Bool)
  /-- A whole number. -/
  | integer (value : Int)
  /-- A number that is not written as a whole one, or is too large for it. -/
  | number (value : Float)
  /-- A string. -/
  | text (value : List Char)
  /-- An array. -/
  | sequence
  /-- An object. -/
  | map

/-- The name of what was found. -/
def Found.message : Found → String
  | .null => "null"
  | .boolean true => "boolean `true`"
  | .boolean false => "boolean `false`"
  | .integer n => "integer `" ++ Text.ofInt n ++ "`"
  | .number x => "floating point `" ++ String.ofList (numberLayout.write x) ++ "`"
  | .text s => "string " ++ String.ofList (Text.display s)
  | .sequence => "sequence"
  | .map => "map"

/-- What a place of a document should hold. -/
inductive Expected where
  /-- A signed integer of thirty-two bits. -/
  | integer
  /-- A number. -/
  | number
  /-- A string. -/
  | text
  /-- An array. -/
  | sequence
  /-- The fields of a term. -/
  | term
  /-- The fields of a configuration. -/
  | configuration
  /-- The fields of a whole document. -/
  | document
deriving DecidableEq

/-- The name of what was expected. -/
def Expected.message : Expected → String
  | .integer => "i32"
  | .number => "f64"
  | .text => "a string"
  | .sequence => "a sequence"
  | .term => "struct Term"
  | .configuration => "struct ModelConfiguration"
  | .document => "struct ModelDocument"

/-- How many elements a record written as an array has. -/
def Expected.elements : Expected → String
  | .term => " with 2 elements"
  | .configuration => " with 3 elements"
  | .document => " with 1 element"
  | _ => ""

/-- A defect of a document. -/
inductive Defect where
  /-- The text ends inside an array. -/
  | endInList
  /-- The text ends inside an object. -/
  | endInObject
  /-- The text ends inside a string. -/
  | endInString
  /-- The text ends where a value should stand, or inside one. -/
  | endInValue
  /-- No colon after a key. -/
  | noColon
  /-- Neither a comma nor the end of an array after an element. -/
  | noListSeparator
  /-- Neither a comma nor the end of an object after a member. -/
  | noObjectSeparator
  /-- A word starts like one of the three known ones and goes on differently. -/
  | badWord
  /-- No value starts here. -/
  | noValue
  /-- An unknown escape. -/
  | badEscape
  /-- A malformed number. -/
  | badNumber
  /-- A number beyond the range of floating-point numbers. -/
  | outOfRange
  /-- A control character inside a string. -/
  | controlCharacter
  /-- A key that is no string. -/
  | badKey
  /-- One half of a surrogate pair. -/
  | loneSurrogate
  /-- The second half of a surrogate pair does not follow the first. -/
  | brokenPair
  /-- A comma before the end of an array or object. -/
  | trailingComma
  /-- More text than expected. -/
  | trailingText
  /-- A value of the wrong kind. -/
  | wrongType (found : Found) (expected : Expected)
  /-- An integer out of the bounds of its field. -/
  | wrongValue (value : Int) (expected : Expected)
  /-- An obligatory field is absent. -/
  | missingField (name : String)
  /-- A field stands twice. -/
  | duplicateField (name : String)
  /-- A record written as an array ends after `length` elements, too early. -/
  | wrongLength (length : Nat) (expected : Expected)

/-- The wording of a defect. -/
def Defect.message : Defect → String
  | .endInList => "EOF while parsing a list"
  | .endInObject => "EOF while parsing an object"
  | .endInString => "EOF while parsing a string"
  | .endInValue => "EOF while parsing a value"
  | .noColon => "expected `:`"
  | .noListSeparator => "expected `,` or `]`"
  | .noObjectSeparator => "expected `,` or `\x7d`"
  | .badWord => "expected ident"
  | .noValue => "expected value"
  | .badEscape => "invalid escape"
  | .badNumber => "invalid number"
  | .outOfRange => "number out of range"
  | .controlCharacter =>
      "control character (\\u0000-\\u001F) found while parsing a string"
  | .badKey => "key must be a string"
  | .loneSurrogate => "lone leading surrogate in hex escape"
  | .brokenPair => "unexpected end of hex escape"
  | .trailingComma => "trailing comma"
  | .trailingText => "trailing characters"
  | .wrongType found expected =>
      "invalid type: " ++ found.message ++ ", expected " ++ expected.message
  | .wrongValue n expected =>
      "invalid value: integer `" ++ Text.ofInt n ++ "`, expected " ++ expected.message
  | .missingField name => "missing field `" ++ name ++ "`"
  | .duplicateField name => "duplicate field `" ++ name ++ "`"
  | .wrongLength n expected =>
      "invalid length " ++ Text.ofNat n ++ ", expected " ++ expected.message ++ expected.elements

end WeightedSat.Document
