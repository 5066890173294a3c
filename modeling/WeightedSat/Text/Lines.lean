/-!
**Lines.**

A line ends at a line feed.  The feed is not part of the line, nor is one carriage return right
before it; what follows the last feed is a line of its own unless it is empty, and keeps its
carriage return.

Main definitions:

* `WeightedSat.Text.pieces` — what stands between the feeds;
* `WeightedSat.Text.linesOf` — the lines over any alphabet;
* `WeightedSat.Text.lines` — the lines of a text;
* `WeightedSat.Text.byteLines` — the lines of a sequence of bytes.

Main results:

* `WeightedSat.Text.pieces_nil`, `WeightedSat.Text.pieces_cons` — the pieces of a text, symbol by
  symbol.
-/

set_option relaxedAutoImplicit false
set_option autoImplicit false

namespace WeightedSat.Text

variable {α : Type} [DecidableEq α]

/-- Puts a symbol in front of the first piece. -/
def onFirst (a : α) : List (List α) → List (List α)
  | [] => [[a]]
  | p :: ps => (a :: p) :: ps

/-- What stands between the feeds, in order; one more piece than there are feeds. -/
def pieces (feed : α) (text : List α) : List (List α) :=
  text.foldr (fun a ps => if a = feed then [] :: ps else onFirst a ps) [[]]

/-- Removes one carriage return at the end. -/
def chomp (ret : α) (line : List α) : List α :=
  if line.getLast? = some ret then line.dropLast else line

/-- The lines of a text over an alphabet with a line feed and a carriage return. -/
def linesOf (feed ret : α) (text : List α) : List (List α) :=
  (pieces feed text).dropLast.map (chomp ret) ++
    (pieces feed text).getLast?.toList.filter (!·.isEmpty)

/-- The lines of a text. -/
def lines (text : List Char) : List (List Char) :=
  linesOf '\n' '\r' text

/-- The lines of a sequence of bytes. -/
def byteLines (bytes : ByteArray) : List (List UInt8) :=
  linesOf 10 13 bytes.toList

/-! ### The pieces -/

@[simp] theorem pieces_nil (feed : α) : pieces feed [] = [[]] := rfl

theorem pieces_cons (feed a : α) (text : List α) :
    pieces feed (a :: text) =
      if a = feed then [] :: pieces feed text else onFirst a (pieces feed text) := rfl

end WeightedSat.Text
