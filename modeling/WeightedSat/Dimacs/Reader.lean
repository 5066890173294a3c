import WeightedSat.Decimal.Reader
import WeightedSat.Dimacs.Token
import WeightedSat.Formula
import WeightedSat.Text.Lines

/-!
**Reading clause files.**

A clause file is read line by line.  While no clause is open, a line whose first word starts with
`c` is a comment and one whose first word starts with `p` is the problem line; all other lines are
sequences of words that make up clauses, which may span lines.  After a weighted problem line a
clause starts with its weight.  The literal zero ends a clause.

Main definitions:

* `WeightedSat.Dimacs.Header` — the contents of the problem line;
* `WeightedSat.Dimacs.Pending` — a clause that has not ended;
* `WeightedSat.Dimacs.Progress` — what has been read so far;
* `WeightedSat.Dimacs.Progress.word`, `WeightedSat.Dimacs.Progress.line` — one word, one line;
* `WeightedSat.Dimacs.Progress.finish` — the formula after the last line;
* `WeightedSat.Dimacs.parse`, `WeightedSat.Dimacs.parseBytes` — the formula a text or a file holds.
-/

set_option relaxedAutoImplicit false
set_option autoImplicit false

namespace WeightedSat.Dimacs

/-- The contents of the problem line. -/
structure Header where
  /-- The dialect of the clauses that follow. -/
  dialect : Dialect
  /-- The announced number of distinct variables. -/
  variableCount : Nat
  /-- The announced number of clauses. -/
  clauseCount : Nat
  /-- The threshold of a weighted problem. -/
  top : Option Float

/-- A clause that has not ended. -/
structure Pending where
  /-- Its weight. -/
  weight : Float
  /-- Its literals, the last one first. -/
  literals : List Literal
  /-- The same literals as a set. -/
  seen : Std.TreeSet Literal

/-- A clause of weight one without literals. -/
def Pending.unit : Pending := ⟨1.0, [], ∅⟩

/-- What has been read so far. -/
structure Progress where
  /-- The problem line, once it has been met. -/
  header : Option Header
  /-- The clauses that have ended, the last one first. -/
  clauses : List Clause
  /-- The open clause. -/
  pending : Option Pending
  /-- The end of the last line with a word on it. -/
  lastEnd : Text.Position

/-- Before the first line. -/
def Progress.start : Progress := ⟨none, [], none, ⟨1, 1⟩⟩

/-- A defect at a word of the given line. -/
def Token.fail {α : Type} (t : Token) (line : Nat) (defect : Defect) : Except Error α :=
  .error (.dimacs ⟨line, t.column⟩ defect)

/-! ### The problem line -/

/-- A count: an integer of sixty-four bits that is positive and fits thirty-two bits. -/
def Token.count (t : Token) (line : Nat) : Except Error Nat :=
  match Text.readSigned? 64 t.text with
  | none => t.fail line (.notNumber t.word)
  | some n => if 0 < n ∧ n < wordCount 32 then .ok n.toNat else t.fail line (.badCount t.word)

/-- The dialect. -/
def Token.dialect (t : Token) (line : Nat) : Except Error Dialect :=
  if t.text = Dialect.plain.keyword.toList then .ok .plain
  else if t.text = Dialect.weighted.keyword.toList then .ok .weighted
  else t.fail line (.unknownDialect t.word)

/-- A floating-point number. -/
def Token.float (t : Token) (line : Nat) : Except Error Float :=
  match Decimal.readFloat? t.text with
  | none => t.fail line (.notNumber t.word)
  | some x => .ok x

/-- The threshold of a weighted problem line, and the words after it. -/
def readTop (line : Nat) : Dialect → List Token → Except Error (Option Float × List Token)
  | .weighted, t :: rest => do return (some (← t.float line), rest)
  | _, rest => .ok (none, rest)

/-- The problem line, from its mark and the words after it; `size` is the length of the line in
bytes, behind which a missing field is reported. -/
def readHeader (line size : Nat) (mark : Token) (fields : List Token) : Except Error Header := do
  if mark.text ≠ ['p'] then mark.fail line (.wrongMark mark.word)
  let missing (field : Field) : Error := .dimacs ⟨line, size + 1⟩ (.missingField field)
  let kind :: fields := fields | throw (missing .dialect)
  let dialect ← kind.dialect line
  let names :: fields := fields | throw (missing .variableCount)
  let variableCount ← names.count line
  let clauses :: fields := fields | throw (missing .clauseCount)
  let clauseCount ← clauses.count line
  let (top, fields) ← readTop line dialect fields
  match fields with
  | [] => return ⟨dialect, variableCount, clauseCount, top⟩
  | t :: _ => t.fail line (.surplusWord t.word)

/-! ### Clauses -/

namespace Progress

/-- Whether clauses start with a weight. -/
def isWeighted (p : Progress) : Bool :=
  p.header.any fun h => h.dialect = .weighted

/-- A weight, which opens a clause. -/
def readWeight (p : Progress) (line : Nat) (t : Token) : Except Error Progress := do
  let w ← t.float line
  if w.isFinite && 0.0 < w then return { p with pending := some ⟨w, [], ∅⟩ }
  else t.fail line (.badWeight t.word)

/-- The end of a clause. -/
def closeClause (p : Progress) (line : Nat) (t : Token) : Except Error Progress :=
  let c := p.pending.getD .unit
  if c.literals.isEmpty then t.fail line .emptyClause
  else .ok { p with clauses := ⟨c.weight, c.literals.reverse⟩ :: p.clauses, pending := none }

/-- A literal of the open clause, or of a new one of weight one. -/
def addLiteral (p : Progress) (line : Nat) (t : Token) (l : Literal) : Except Error Progress :=
  let c := p.pending.getD .unit
  if c.seen.contains l then t.fail line (.repeatedLiteral l.toSigned)
  else if c.seen.contains l.negate then t.fail line (.bothPolarities l.name)
  else .ok { p with pending := some ⟨c.weight, l :: c.literals, c.seen.insert l⟩ }

/-- One word of a clause. -/
def word (line : Nat) (p : Progress) (t : Token) : Except Error Progress :=
  if p.isWeighted && p.pending.isNone then p.readWeight line t
  else
    match Text.readSigned? 32 t.text with
    | none => t.fail line (.notNumber t.word)
    | some x =>
        match Literal.ofSigned? x with
        | none => p.closeClause line t
        | some l => p.addLiteral line t l

/-! ### Lines -/

/-- One line with a word on it, given by its words and its length in bytes. -/
def words (p : Progress) (line size : Nat) (first : Token) (rest : List Token) :
    Except Error Progress :=
  if p.pending.isNone && first.startsWith 'c' then .ok p
  else if p.pending.isNone && first.startsWith 'p' then
    match p.header with
    | some _ => first.fail line .secondProblemLine
    | none => do return { p with header := some (← readHeader line size first rest) }
  else (first :: rest).foldlM (word line) p

/-- One line; `line` is its number. -/
def line (p : Progress) (text : Except File.Fault (List Char)) (line : Nat) :
    Except Error Progress :=
  match text with
  | .error cause => .error (.dimacs ⟨line, 1⟩ (.unreadable cause))
  | .ok text =>
      match tokens text with
      | [] => .ok p
      | first :: rest =>
          let size := Text.byteSize text
          words { p with lastEnd := ⟨line, size + 1⟩ } line size first rest

/-- The formula after the last line. -/
def finish (p : Progress) : Except Error Formula := do
  if p.pending.isSome then throw (.dimacs p.lastEnd .unterminatedClause)
  let some header := p.header | throw .missingProblemLine
  let clauses := p.clauses.reverse
  if clauses.length ≠ header.clauseCount then
    throw (.clauseCount clauses.length header.clauseCount)
  let formula := Formula.ofClauses header.dialect header.top clauses
  let found := formula.names.length
  if found ≠ header.variableCount then throw (.variableCount found header.variableCount)
  return formula

end Progress

/-! ### Files -/

/-- The formula that a sequence of lines holds. -/
def parseLines (lines : List (Except File.Fault (List Char))) : Except Error Formula := do
  let p ← (lines.zipIdx 1).foldlM (fun p line => Progress.line p line.1 line.2) Progress.start
  p.finish

/-- The formula that characters hold. -/
def parseChars (text : List Char) : Except Error Formula :=
  parseLines ((Text.lines text).map .ok)

/-- **The formula that a text holds.** -/
def parse (text : String) : Except Error Formula :=
  parseChars text.toList

/-- A line of bytes as text. -/
def decodeLine (line : List UInt8) : Except File.Fault (List Char) :=
  match String.fromUTF8? ⟨line.toArray⟩ with
  | some text => .ok text.toList
  | none => .error .notText

/-- **The formula that the bytes of a file hold.**  Bytes that are no text are met line by line, so
that a defect before them is reported first. -/
def parseBytes (bytes : ByteArray) : Except Error Formula :=
  match String.fromUTF8? bytes with
  | some text => parse text
  | none => parseLines ((Text.byteLines bytes).map decodeLine)

end WeightedSat.Dimacs
