import WeightedSat.Document.Scalar

/-!
**Passing over values of a document.**

The value of an unknown key has to be well formed, but nothing else: its numbers have no range, its
strings may hold halves of surrogate pairs, and it may be nested to any depth.

Main definitions:

* `WeightedSat.Document.Bracket` — the two kinds of brackets;
* `WeightedSat.Document.skipNumber`, `WeightedSat.Document.skipString` — passing over scalars;
* `WeightedSat.Document.skipValue` — passing over a value.
-/

set_option relaxedAutoImplicit false
set_option autoImplicit false

namespace WeightedSat.Document

/-- The two kinds of brackets. -/
inductive Bracket where
  /-- Those of an array. -/
  | list
  /-- Those of an object. -/
  | object
deriving DecidableEq

/-- The closing bracket. -/
def Bracket.closing : Bracket → Char
  | .list => ']'
  | .object => '\x7d'

/-- The text ends between brackets. -/
def Bracket.atEnd : Bracket → Defect
  | .list => .endInList
  | .object => .endInObject

/-- Neither a comma nor the closing bracket. -/
def Bracket.noSeparator : Bracket → Defect
  | .list => .noListSeparator
  | .object => .noObjectSeparator

/-! ### Scalars -/

/-- Passes the power of ten of a number, from its mark on. -/
def skipPower : Reader Unit := do
  advance
  if (← peek) == some '-' || (← peek) == some '+' then advance
  if (← takeDigits).isEmpty then failAhead .badNumber

/-- Passes a fraction and the power of ten behind it. -/
def skipFraction : Reader Unit := do
  advance
  if (← takeDigits).isEmpty then failAhead .badNumber
  match ← peek with
  | some 'e' => skipPower
  | some 'E' => skipPower
  | _ => return ()

/-- Passes the digits before the point. -/
def skipWhole : Reader Unit := do
  if (← peek).isNone then failAhead .badNumber
  let _ ← readWhole

/-- Passes a number, behind its sign. -/
def skipNumber : Reader Unit := do
  skipWhole
  match ← peek with
  | some '.' => skipFraction
  | some 'e' => skipPower
  | some 'E' => skipPower
  | _ => return ()

/-- Passes one character of a string, or its end. -/
def skipStringStep (_ : Unit) : Reader (Unit ⊕ Unit) := do
  match ← peek with
  | none => failHere .endInString
  | some '"' =>
      advance
      return .inr ()
  | some '\\' =>
      advance
      readEscape (do let _ ← readHex) fun _ => ()
      return .inl ()
  | some a =>
      if a.toNat < 0x20 then failHere .controlCharacter
      else
        advance
        return .inl ()

/-- Passes a string, behind its first quotation mark. -/
def skipString : Reader Unit :=
  loop skipStringStep ()

/-! ### Values -/

/-- The colon behind a key. -/
def readColon : Reader Unit := do
  match ← peekNext with
  | some ':' => advance
  | some _ => failAhead .noColon
  | none => failAhead .endInObject

/-- Passes a key and its colon. -/
def skipKey : Reader Unit := do
  match ← peekNext with
  | some '"' =>
      advance
      skipString
      readColon
  | some _ => failAhead .badKey
  | none => failAhead .endInObject

/-- Where one stands inside a value that is passed over. -/
inductive Inside where
  /-- Before a value, between the given brackets. -/
  | before (brackets : List Bracket)
  /-- Behind a value, directly inside the first of the given brackets. -/
  | behind (bracket : Bracket) (outer : List Bracket)

/-- Behind a value: done, unless there are brackets around it. -/
def closeValue : List Bracket → Inside ⊕ Unit
  | [] => .inr ()
  | bracket :: outer => .inl (.behind bracket outer)

/-- Behind an opening bracket: the closing one, or the first value. -/
def openBracket (bracket : Bracket) (outer : List Bracket) : Reader (Inside ⊕ Unit) := do
  advance
  match ← peekNext with
  | none => failAhead bracket.atEnd
  | some a =>
      if a = bracket.closing then
        advance
        return closeValue outer
      else
        if bracket = .object then skipKey
        return .inl (.before (bracket :: outer))

/-- Passes the start of a value. -/
def skipStart (brackets : List Bracket) : Reader (Inside ⊕ Unit) := do
  match ← peekNext with
  | none => failAhead .endInValue
  | some '[' => openBracket .list brackets
  | some '\x7b' => openBracket .object brackets
  | some a =>
      if a = 'n' then do advance; readWord ['u', 'l', 'l']
      else if a = 't' then do advance; readWord ['r', 'u', 'e']
      else if a = 'f' then do advance; readWord ['a', 'l', 's', 'e']
      else if a = '"' then do advance; skipString
      else if a = '-' then do advance; skipNumber
      else if Text.isDigit a then skipNumber
      else failAhead .noValue
      return closeValue brackets

/-- Passes what follows a value between brackets. -/
def skipSeparator (bracket : Bracket) (outer : List Bracket) : Reader (Inside ⊕ Unit) := do
  match ← peekNext with
  | none => failAhead bracket.atEnd
  | some a =>
      if a = bracket.closing then
        advance
        return closeValue outer
      else if a = ',' then
        advance
        if bracket = .object then skipKey
        return .inl (.before (bracket :: outer))
      else failAhead bracket.noSeparator

/-- Passes one part of a value. -/
def skipStep : Inside → Reader (Inside ⊕ Unit)
  | .before brackets => skipStart brackets
  | .behind bracket outer => skipSeparator bracket outer

/-- **Passes over a value.** -/
def skipValue : Reader Unit :=
  loop skipStep (.before [])

end WeightedSat.Document
