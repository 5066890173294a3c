import WeightedSat.Text.Blank

/-!
**The words of a line.**

A line is cut into runs of characters that are all blank or all not blank; the runs that are not
blank are its words.  Each word carries the column it starts in, counted in characters from one.

Main definitions:

* `WeightedSat.Dimacs.Token` — a word with its column;
* `WeightedSat.Dimacs.runs` — the maximal runs of blank and of other characters;
* `WeightedSat.Dimacs.tokens` — the words of a line.

Main results:

* `WeightedSat.Dimacs.place_eq_append` — how the words of a line are collected.
-/

set_option relaxedAutoImplicit false
set_option autoImplicit false

namespace WeightedSat.Dimacs

/-- A word of a line. -/
structure Token where
  /-- Its characters. -/
  text : List Char
  /-- The column of the first one. -/
  column : Nat
deriving DecidableEq

/-- A word as a string. -/
def Token.word (t : Token) : String :=
  String.ofList t.text

/-- Whether a word starts with a given character. -/
def Token.startsWith (t : Token) (c : Char) : Bool :=
  t.text.head? = some c

/-- The maximal runs of blank and of other characters, in order. -/
def runs (line : List Char) : List (List Char) :=
  line.splitBy fun a b => Text.isBlank a == Text.isBlank b

/-- Whether a run is a word. -/
def isWord (run : List Char) : Bool :=
  run.all (!Text.isBlank ·)

/-- Collects the words among runs, the first of which starts in the given column; `found` are the
words already collected, the last one first. -/
def place (found : List Token) (column : Nat) : List (List Char) → List Token
  | [] => found.reverse
  | run :: rest =>
      place (if isWord run then ⟨run, column⟩ :: found else found) (column + run.length) rest

/-- **The words of a line.** -/
def tokens (line : List Char) : List Token :=
  place [] 1 (runs line)

theorem place_eq_append (found : List Token) (column : Nat) (rs : List (List Char)) :
    place found column rs = found.reverse ++ place [] column rs := by
  induction rs generalizing found column with
  | nil => simp [place]
  | cons run rest ih =>
      rw [place, place, ih, ih (if isWord run then [⟨run, column⟩] else [])]
      split <;> simp

end WeightedSat.Dimacs
