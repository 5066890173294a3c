import WeightedSat.Decimal.Layout
import WeightedSat.Dimacs.Defect
import WeightedSat.Document.Defect
import WeightedSat.Fault
import WeightedSat.Text.Position

/-!
**Errors.**

One constructor per cause; the wording of all of them is in one function.

Main definitions:

* `WeightedSat.Error` — the causes;
* `WeightedSat.Error.kind` — the class a cause belongs to;
* `WeightedSat.Error.position?` — the place of a defect in a text;
* `WeightedSat.Error.message` — the wording.
-/

set_option relaxedAutoImplicit false
set_option autoImplicit false

namespace WeightedSat

/-- Why an operation has no result. -/
inductive Error where
  /-- The model has not been configured. -/
  | notConfigured
  /-- A clause without literals. -/
  | emptyClause
  /-- A clause weight that is not finite and positive. -/
  | badWeight (weight : Float)
  /-- A name that has no negative literal, or none of the admitted size. -/
  | unnegatableName (name : Nat)
  /-- A literal that occurs twice in a clause. -/
  | repeatedLiteral (literal : Int)
  /-- A variable that occurs with both polarities in a clause. -/
  | bothPolarities (name : Nat)
  /-- More clauses than can be numbered. -/
  | tooManyClauses (count : Nat)
  /-- A clause with more variables than a counter can count. -/
  | counterCapacity (width capacity : Nat)
  /-- An assignment of the wrong length. -/
  | wrongAssignment (length variableCount : Nat)
  /-- A state with another number of variables than the model. -/
  | wrongState (length variableCount : Nat)
  /-- A configuration for another kind of model. -/
  | wrongKind (expected found : String)
  /-- A configuration of another version. -/
  | wrongVersion (kind found expected : String)
  /-- A configuration without terms. -/
  | noTerms
  /-- A clause file without problem line. -/
  | missingProblemLine
  /-- The problem line announces another number of clauses. -/
  | clauseCount (found announced : Nat)
  /-- The problem line announces another number of variables. -/
  | variableCount (found announced : Nat)
  /-- A clause file that cannot be opened. -/
  | cannotOpen (path : String) (cause : File.Fault)
  /-- A document that cannot be read. -/
  | cannotRead (path : String) (cause : File.Fault)
  /-- A file whose name has an unknown ending. -/
  | unsupportedFile (path : String)
  /-- A defect of a clause file. -/
  | dimacs (place : Text.Position) (defect : Dimacs.Defect)
  /-- A defect of a document. -/
  | document (place : Text.Position) (defect : Document.Defect)
  /-- A call outside the domain of an operation. -/
  | fault (cause : Fault)

/-- The classes of errors. -/
inductive ErrorKind where
  /-- The operation needs a configured model. -/
  | configuration
  /-- A value is refused. -/
  | value
  /-- Two sizes do not agree. -/
  | index
  /-- A text is malformed. -/
  | parsing
  /-- A call outside the domain of an operation. -/
  | fault
deriving DecidableEq

namespace Error

/-- The class of an error. -/
def kind : Error → ErrorKind
  | .notConfigured => .configuration
  | .wrongState .. => .index
  | .dimacs .. => .parsing
  | .document .. => .parsing
  | .fault _ => .fault
  | _ => .value

/-- The place of a defect in a text. -/
def position? : Error → Option Text.Position
  | .dimacs place _ => some place
  | .document place _ => some place
  | _ => none

/-- A place as it ends the message of a malformed text. -/
def placeMessage (place : Text.Position) : String :=
  " on line " ++ Text.ofNat place.line ++ ", col " ++ Text.ofNat place.column

/-- The wording of an error. -/
def message : Error → String
  | .notConfigured => "configuration error: maxsat model used before configure()"
  | .emptyClause => "List of variables in a clause cannot be empty."
  | .badWeight w =>
      "Clause weight must be positive, got " ++ String.ofList (Decimal.Layout.plain.write w)
  | .unnegatableName name =>
      "MaxSat variables cannot have the name " ++ Text.ofNat name ++
        " since it cannot be negated to indicate 'not " ++ Text.ofNat name ++ "'."
  | .repeatedLiteral x => "Variable name " ++ Text.ofInt x ++ " appears multiple times in clause."
  | .bothPolarities name =>
      "Variable name " ++ Text.ofNat name ++ " appears both positive and negative in clause."
  | .tooManyClauses count => "Too many clauses to index: " ++ Text.ofNat count
  | .counterCapacity width capacity =>
      "Clause with " ++ Text.ofNat width ++ " variables exceeds the counter capacity of " ++
        Text.ofNat capacity
  | .wrongAssignment length count =>
      "Wrong number of variables to initialize: got " ++ Text.ofNat length ++
        " but the model has " ++ Text.ofNat count ++ " active variable" ++
        (if count = 1 then "." else "s.")
  | .wrongState length count =>
      "Number of variables in the state does not correspond to the number of variables" ++
        " in the model: " ++ Text.ofNat length ++ "!=" ++ Text.ofNat count
  | .wrongKind expected found =>
      "Model type mismatch: expected '" ++ expected ++ "', got '" ++ found ++ "'"
  | .wrongVersion kind found expected =>
      "Unsupported " ++ kind ++ " version '" ++ found ++ "', expected '" ++ expected ++ "'"
  | .noTerms => "Model terms must not be empty."
  | .missingProblemLine => "Missing problem line in dimacs input"
  | .clauseCount found announced =>
      "Number of clauses parsed does not match: " ++ Text.ofNat found ++ "!=" ++
        Text.ofNat announced
  | .variableCount found announced =>
      "Number of variables found does not match: " ++ Text.ofNat found ++ "!=" ++
        Text.ofNat announced
  | .cannotOpen path cause => "failed to open " ++ path ++ ": " ++ cause.message
  | .cannotRead path cause => "failed to read " ++ path ++ ": " ++ cause.message
  | .unsupportedFile path =>
      "Unsupported model file " ++ path ++ ": expected .cnf, .wcnf or .json"
  | .dimacs place defect => defect.message ++ placeMessage place
  | .document place defect =>
      defect.message ++ " at line " ++ Text.ofNat place.line ++ " column " ++
        Text.ofNat place.column ++ placeMessage place
  | .fault cause => cause.message

end Error

end WeightedSat
