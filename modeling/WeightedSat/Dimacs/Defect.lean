import WeightedSat.File.Fault
import WeightedSat.Text.Numeral

/-!
**What can be wrong with a clause file.**

Main definitions:

* `WeightedSat.Dimacs.Defect` — the causes that have a place in the text;
* `WeightedSat.Dimacs.Defect.message` — their wording, without the place.
-/

set_option relaxedAutoImplicit false
set_option autoImplicit false

namespace WeightedSat.Dimacs

/-- The obligatory fields of a problem line after its mark. -/
inductive Field where
  /-- The dialect. -/
  | dialect
  /-- The number of variables. -/
  | variableCount
  /-- The number of clauses. -/
  | clauseCount
deriving DecidableEq

/-- What a field holds, in the words of messages. -/
def Field.description : Field → String
  | .dialect => "problem type"
  | .variableCount => "number of variables"
  | .clauseCount => "number of clauses"

/-- A defect at a place of a clause file. -/
inductive Defect where
  /-- The line cannot be read. -/
  | unreadable (cause : File.Fault)
  /-- A problem line after the first one. -/
  | secondProblemLine
  /-- The first word of a problem line starts with its mark but is longer. -/
  | wrongMark (found : String)
  /-- A problem line ends before a field. -/
  | missingField (field : Field)
  /-- The dialect is unknown. -/
  | unknownDialect (found : String)
  /-- A word that should be a number is none. -/
  | notNumber (found : String)
  /-- A count is not positive, or too large. -/
  | badCount (found : String)
  /-- A weight is not finite and positive. -/
  | badWeight (found : String)
  /-- A problem line goes on after its last field. -/
  | surplusWord (found : String)
  /-- A clause without literals. -/
  | emptyClause
  /-- A literal occurs twice in a clause. -/
  | repeatedLiteral (literal : Int)
  /-- A variable occurs with both polarities in a clause. -/
  | bothPolarities (name : Nat)
  /-- The text ends inside a clause. -/
  | unterminatedClause
deriving DecidableEq

/-- The wording of a defect. -/
def Defect.message : Defect → String
  | .unreadable cause => "failed to read line: " ++ cause.message
  | .secondProblemLine => "Multiple problem lines in dimacs input"
  | .wrongMark found => "Expected 'p ', found '" ++ found ++ "'"
  | .missingField field => "Expected " ++ field.description
  | .unknownDialect found => "Expected `type` to be 'cnf' or 'wcnf', found '" ++ found ++ "'"
  | .notNumber found => "Expected number, found '" ++ found ++ "'"
  | .badCount found => "Expected positive number, found '" ++ found ++ "'"
  | .badWeight found => "Expected positive weight, found '" ++ found ++ "'"
  | .surplusWord found => "Unexpected token '" ++ found ++ "' in problem line"
  | .emptyClause => "List of variables in a clause cannot be empty"
  | .repeatedLiteral literal =>
      "Variable name " ++ Text.ofInt literal ++ " appears multiple times in clause"
  | .bothPolarities name =>
      "Variable name " ++ Text.ofNat name ++ " appears both positive and negative in clause"
  | .unterminatedClause => "Expected literal 0 terminating the last clause"

end WeightedSat.Dimacs
