import WeightedSat.Document.Cursor

/-!
**Words, numbers and strings of a document.**

Numbers are read with the precision of one machine word: as many digits as fit sixty-four bits make
up a whole number, whose nearest floating-point number is then multiplied or divided by the nearest
floating-point number of a power of ten.

Main definitions:

* `WeightedSat.Document.readWord` — the rest of a known word;
* `WeightedSat.Document.Number`, `WeightedSat.Document.readNumber` — numbers;
* `WeightedSat.Document.scale?` — a whole number times a power of ten;
* `WeightedSat.Document.readString` — strings with their escapes.
-/

set_option relaxedAutoImplicit false
set_option autoImplicit false

namespace WeightedSat.Document

/-- The rest of a known word, letter by letter. -/
def readWord : List Char → Reader Unit
  | [] => return ()
  | a :: letters => do
      match ← peek with
      | none => failHere .endInValue
      | some b =>
          if a = b then
            advance
            readWord letters
          else failAhead .badWord

/-! ### Numbers -/

/-- A number of a document. -/
inductive Number where
  /-- A whole number that fits sixty-four bits. -/
  | integer (n : Int)
  /-- Any other number. -/
  | float (x : Float)

/-- The nearest floating-point number of a natural number. -/
def floatOfNat (n : Nat) : Float :=
  Decimal.toFloat ⟨n, 0⟩

/-- A floating-point number with a minus sign, where there is one. -/
def withSign (negative : Bool) (x : Float) : Float :=
  if negative then -x else x

/-- The value as a floating-point number. -/
def Number.toFloat : Number → Float
  | .integer n => withSign (n < 0) (floatOfNat n.natAbs)
  | .float x => x

/-- The number where something else was expected. -/
def Number.found : Number → Found
  | .integer n => .integer n
  | .float x => .number x

/-- Adds digits to a number as long as it does not exceed the limit; the digits that are left. -/
def gather (limit : Nat) : Nat → List Char → Nat × List Char
  | n, [] => (n, [])
  | n, d :: ds =>
      let next := 10 * n + Text.digitValue d
      if limit < next then (n, d :: ds) else gather limit next ds

/-- The greatest number of sixty-four bits. -/
def wordLimit : Nat := wordCount 64 - 1

/-- The greatest power of ten that is multiplied with in one step. -/
def maxPower : Nat := 308

/-- The nearest floating-point number of a power of ten. -/
def powerOfTen (k : Nat) : Float :=
  Decimal.toFloat ⟨1, k⟩

/-- `x` times a power of ten, in steps of the greatest one; nothing beyond the range. -/
def scale? (x : Float) (power : Int) : Option Float :=
  if power.natAbs ≤ maxPower then
    if 0 ≤ power then
      let y := x * powerOfTen power.natAbs
      if y.isInf then none else some y
    else some (x / powerOfTen power.natAbs)
  else if x == 0.0 then some x
  else if 0 ≤ power then none
  else scale? (x / powerOfTen maxPower) (power + maxPower)
termination_by (-power).toNat
decreasing_by
  simp only [maxPower] at *
  omega

/-- The floating-point number with a given significand and power of ten. -/
def finishFloat (negative : Bool) (significand : Nat) (power : Int) : Reader Number :=
  match scale? (floatOfNat significand) power with
  | some x => return .float (withSign negative x)
  | none => failHere .outOfRange

/-- The greatest power that may be written. -/
def powerLimit : Nat := wordCount 31 - 1

/-- The power of ten from its mark on; `power` is the one that the digits already have. -/
def readPower (negative : Bool) (significand : Nat) (power : Int) : Reader Number := do
  advance
  let down := (← peek) == some '-'
  if down || (← peek) == some '+' then advance
  let before := (← get).offset
  match ← takeDigits with
  | [] => if (← peek).isNone then failHere .endInValue else failAhead .badNumber
  | d :: ds =>
      let (n, left) := gather powerLimit 0 (d :: ds)
      if left.isEmpty then
        finishFloat negative significand (if down then power - n else power + n)
      else if significand ≠ 0 ∧ !down then
        failAt (before + (d :: ds).length - left.length + 1) .outOfRange
      else return .float (withSign negative 0.0)

/-- The fraction from its point on; `power` is the number of whole digits that were left out. -/
def readFraction (negative : Bool) (significand : Nat) (power : Nat) : Reader Number := do
  advance
  match ← takeDigits with
  | [] => if (← peek).isNone then failAhead .endInValue else failAhead .badNumber
  | d :: ds =>
      let (significand, left) := gather wordLimit significand (d :: ds)
      let power : Int := power - ((d :: ds).length - left.length : Nat)
      match ← peek with
      | some 'e' => readPower negative significand power
      | some 'E' => readPower negative significand power
      | _ => finishFloat negative significand power

/-- A whole number of sixty-four bits; what does not fit, and negative zero, is a floating-point
number. -/
def wholeNumber (negative : Bool) (n : Nat) : Number :=
  if !negative then .integer n
  else if n = 0 ∨ wordCount 63 < n then .float (-floatOfNat n)
  else .integer (-n)

/-- The digits before the point: one zero, or digits that start with none. -/
def readWhole : Reader (List Char) := do
  match ← peek with
  | none => failHere .endInValue
  | some '0' =>
      advance
      if ((← peek).map Text.isDigit).getD false then failAhead .badNumber
      return ['0']
  | some a => if Text.isDigit a then takeDigits else failAhead .badNumber

/-- **A number**, behind its sign. -/
def readNumber (negative : Bool) : Reader Number := do
  let (significand, left) := gather wordLimit 0 (← readWhole)
  match ← peek with
  | some '.' => readFraction negative significand left.length
  | some 'e' => readPower negative significand left.length
  | some 'E' => readPower negative significand left.length
  | _ =>
      if left.isEmpty then return wholeNumber negative significand
      else finishFloat negative significand left.length

/-! ### Strings -/

/-- The value of a hexadecimal digit. -/
def hexValue? (a : Char) : Option Nat :=
  if Text.isDigit a then some (a.toNat - 48)
  else if 'a' ≤ a && a ≤ 'f' then some (a.toNat - 87)
  else if 'A' ≤ a && a ≤ 'F' then some (a.toNat - 55)
  else none

/-- Four hexadecimal digits.  They are taken as four bytes; fewer are the end of the text. -/
def readHex : Reader Nat :=
  fun c =>
    let four := c.rest.take 4
    let bytes := Text.byteSize four
    match four.mapM hexValue? with
    | some [a, b, d, e] =>
        .ok (((a * 16 + b) * 16 + d) * 16 + e, ⟨c.rest.drop 4, c.offset + 4⟩)
    | _ =>
        if bytes < 4 then .error ⟨c.offset + bytes, .endInString⟩
        else .error ⟨c.offset + 4, .badEscape⟩

/-- Passes a character that has to follow the first half of a surrogate pair. -/
def expectInPair (a : Char) : Reader Unit := do
  match ← peek with
  | none => failHere .endInString
  | some b => if a = b then advance else failAhead .brokenPair

/-- The character of a numeric escape: four digits, or two times four for a surrogate pair. -/
def readUnicode : Reader Char := do
  let n ← readHex
  if 0xDC00 ≤ n ∧ n ≤ 0xDFFF then failHere .loneSurrogate
  else if 0xD800 ≤ n ∧ n ≤ 0xDBFF then
    expectInPair '\\'
    expectInPair 'u'
    let m ← readHex
    if 0xDC00 ≤ m ∧ m ≤ 0xDFFF then
      return Char.ofNat (0x10000 + (n - 0xD800) * 0x400 + (m - 0xDC00))
    else failHere .loneSurrogate
  else return Char.ofNat n

/-- The characters that stand for one other behind a backslash. -/
def shortEscape? (a : Char) : Option Char :=
  match a with
  | '"' => some '"'
  | '\\' => some '\\'
  | '/' => some '/'
  | 'b' => some '\x08'
  | 'f' => some '\x0c'
  | 'n' => some '\n'
  | 'r' => some '\r'
  | 't' => some '\t'
  | _ => none

/-- An escape, behind its backslash; `unicode` reads a numeric one. -/
def readEscape {α : Type} (unicode : Reader α) (short : Char → α) : Reader α := do
  match ← peek with
  | none => failHere .endInString
  | some 'u' =>
      advance
      unicode
  | some a =>
      match shortEscape? a with
      | some b =>
          advance
          return short b
      | none => failAhead .badEscape

/-- One character of a string, or its end. -/
def stringStep (read : List Char) : Reader (List Char ⊕ List Char) := do
  match ← peek with
  | none => failHere .endInString
  | some '"' =>
      advance
      return .inr read.reverse
  | some '\\' =>
      advance
      return .inl ((← readEscape readUnicode id) :: read)
  | some a =>
      if a.toNat < 0x20 then failAhead .controlCharacter
      else
        advance
        return .inl (a :: read)

/-- **A string**, behind its first quotation mark. -/
def readString : Reader (List Char) :=
  loop stringStep []

end WeightedSat.Document
