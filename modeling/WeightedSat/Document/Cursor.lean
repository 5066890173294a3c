import WeightedSat.Document.Defect
import WeightedSat.Text.Position

/-!
**Reading a document from left to right.**

A reader moves a cursor over the characters of a document and either returns a value or fails at a
place, given by the number of bytes before it.  A failure that only looked at the next byte is
placed behind that byte.

Main definitions:

* `WeightedSat.Document.Cursor` — what is left of a document, and what has been read;
* `WeightedSat.Document.Failure` — a defect with its place;
* `WeightedSat.Document.Reader` — computations that move a cursor;
* `WeightedSat.Document.failHere`, `WeightedSat.Document.failAhead` — failing before or behind the
  next byte;
* `WeightedSat.Document.peekNext` — the next character that is no blank;
* `WeightedSat.Document.loop` — repetition.
-/

set_option relaxedAutoImplicit false
set_option autoImplicit false

namespace WeightedSat.Document

/-- A place in a document. -/
structure Cursor where
  /-- The characters that have not been read. -/
  rest : List Char
  /-- The number of bytes that have been read. -/
  offset : Nat

/-- A defect with the number of bytes before its place. -/
structure Failure where
  /-- The number of bytes before the place. -/
  offset : Nat
  /-- The defect. -/
  defect : Defect

/-- A computation that moves a cursor. -/
abbrev Reader := StateT Cursor (Except Failure)

namespace Cursor

/-- The number of bytes behind the next one, if there is a next one. -/
def ahead (c : Cursor) : Nat :=
  if c.rest.isEmpty then c.offset else c.offset + 1

/-- Behind the next character. -/
def next (c : Cursor) : Cursor :=
  match c.rest with
  | [] => c
  | a :: rest => ⟨rest, c.offset + a.utf8Size⟩

/-- Whether a character may stand between the parts of a document. -/
def isSpace (a : Char) : Bool :=
  a = ' ' || a = '\n' || a = '\t' || a = '\r'

/-- Behind the blanks. -/
def skipSpace (c : Cursor) : Cursor :=
  ⟨c.rest.dropWhile isSpace, c.offset + (c.rest.takeWhile isSpace).length⟩

end Cursor

variable {α σ : Type}

/-- Fails at a given place. -/
def failAt (offset : Nat) (defect : Defect) : Reader α :=
  fun _ => .error ⟨offset, defect⟩

/-- Fails before the next byte. -/
def failHere (defect : Defect) : Reader α :=
  fun c => .error ⟨c.offset, defect⟩

/-- Fails behind the next byte, if there is one. -/
def failAhead (defect : Defect) : Reader α :=
  fun c => .error ⟨c.ahead, defect⟩

/-- The next character, which is not passed. -/
def peek : Reader (Option Char) :=
  fun c => .ok (c.rest.head?, c)

/-- Passes the next character. -/
def advance : Reader Unit :=
  fun c => .ok ((), c.next)

/-- Passes blanks; then the next character, which is not passed. -/
def peekNext : Reader (Option Char) :=
  fun c => .ok (c.skipSpace.rest.head?, c.skipSpace)

/-- The digits from here on, which are passed. -/
def takeDigits : Reader (List Char) :=
  fun c =>
    let ds := c.rest.takeWhile Text.isDigit
    .ok (ds, ⟨c.rest.dropWhile Text.isDigit, c.offset + ds.length⟩)

/-- Repeats a step at most `rounds` times, until it returns a result. -/
def loopWithin (step : σ → Reader (σ ⊕ α)) : Nat → σ → Reader α
  | 0, _ => failHere .endInValue
  | rounds + 1, s => do
      match ← step s with
      | .inl s => loopWithin step rounds s
      | .inr a => return a

/-- Repeats a step until it returns a result.  A step that returns none passes at least one
character, so that there are never more rounds than characters. -/
def loop (step : σ → Reader (σ ⊕ α)) (s : σ) : Reader α :=
  fun c => loopWithin step (c.rest.length + 1) s c

end WeightedSat.Document
