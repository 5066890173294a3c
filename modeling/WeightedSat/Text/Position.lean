/-!
**Positions in a text.**

Main definitions:

* `WeightedSat.Text.Position` — a line and a column, both counted from one;
* `WeightedSat.Text.Position.after` — where one stands after the first bytes of a text.
-/

set_option relaxedAutoImplicit false
set_option autoImplicit false

namespace WeightedSat.Text

/-- A place in a text. -/
structure Position where
  /-- The line, counted from one. -/
  line : Nat
  /-- The column in that line. -/
  column : Nat
deriving DecidableEq

/-- The number of bytes that a text takes. -/
def byteSize (text : List Char) : Nat :=
  text.foldl (fun n c => n + c.utf8Size) 0

namespace Position

/-- Walks through the characters whose first byte is among the first `n`, from byte `pos` on;
`start` is where the current line begins. -/
def walk (n : Nat) : List Char → (pos line start : Nat) → Position
  | [], _, line, start => ⟨line, n - start⟩
  | c :: cs, pos, line, start =>
      if n ≤ pos then ⟨line, n - start⟩
      else if c = '\n' then walk n cs (pos + 1) (line + 1) (pos + 1)
      else walk n cs (pos + c.utf8Size) line start

/-- **Where one stands after the first `n` bytes of a text**: the line is one more than the feeds
passed, the column the number of bytes since the last of them. -/
def after (text : List Char) (n : Nat) : Position :=
  walk n text 0 1 0

end Position

end WeightedSat.Text
