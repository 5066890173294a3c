import WeightedSat.CommandLine.Arguments
import WeightedSat.Document.Writer
import WeightedSat.Loading
import WeightedSat.Random.ChaCha
import WeightedSat.Walk

/-!
**Running a command.**

A command reads one file and prints lines.  What goes wrong is reported as one message, or as a
message with its cause.

Main definitions:

* `WeightedSat.CommandLine.Trouble` — why a command fails;
* `WeightedSat.CommandLine.Outcome` — what a command leaves behind;
* `WeightedSat.CommandLine.Command.output` — what a command prints;
* `WeightedSat.CommandLine.run` — from arguments to outcome.
-/

set_option relaxedAutoImplicit false
set_option autoImplicit false

namespace WeightedSat.CommandLine

/-- Why a command fails. -/
inductive Trouble where
  /-- An error without context. -/
  | plain (cause : Error)
  /-- The model of a file cannot be loaded. -/
  | loading (path : String) (cause : Error)
  /-- A clause file cannot be read. -/
  | reading (path : String) (cause : Error)
  /-- No counter has this width. -/
  | unsupportedWidth (bits : Nat)
  /-- An assignment holds a character other than the two digits. -/
  | badAssignment (character : Char)

/-- The error behind a trouble. -/
def Trouble.error? : Trouble → Option Error
  | .plain cause => some cause
  | .loading _ cause => some cause
  | .reading _ cause => some cause
  | _ => none

/-- A cause, set off by four blanks on every line. -/
def indentCause (text : String) : String :=
  String.ofList ((Text.pieces '\n' text.toList).flatMap fun line => "\n    ".toList ++ line)

/-- The report of a message with its cause. -/
def withCause (message : String) (cause : Error) : String :=
  "Error: " ++ message ++ "\n\nCaused by:" ++ indentCause cause.message ++ "\n"

/-- The report of a trouble. -/
def Trouble.report : Trouble → String
  | .plain cause => "Error: " ++ cause.message ++ "\n"
  | .loading path cause => withCause ("failed to load model from " ++ path) cause
  | .reading path cause => withCause ("failed to read " ++ path) cause
  | .unsupportedWidth bits =>
      "Error: unsupported counter width " ++ Text.ofNat bits ++ ", expected 8|16|32\n"
  | .badAssignment c =>
      "Error: invalid assignment character '" ++ String.singleton c ++ "', expected 0|1\n"

/-- What a command leaves behind. -/
structure Outcome where
  /-- The code it exits with. -/
  exit : Nat
  /-- What it prints. -/
  output : String
  /-- What it reports. -/
  report : String

/-! ### Tasks -/

/-- A number as messages write it. -/
def number (x : Float) : String :=
  String.ofList (Decimal.Layout.plain.write x)

/-- A truth value as messages write it. -/
def truth (b : Bool) : String :=
  if b then "true" else "false"

/-- The statistics of a model. -/
def profile (m : Model) : Except Error String := do
  let memory ← Error.ofFault m.stateMemory
  let largest ← Error.ofFault m.maxDifference
  let smallest ← Error.ofFault m.minDifference
  return "PROFILE\n" ++
    "model=" ++ Model.identifier ++ " version=" ++ Model.version ++ "\n" ++
    "vars=" ++ Text.ofNat m.variableCount ++
    " free_vars=" ++ Text.ofNat m.encoding.freeNames.length ++
    " clauses=" ++ Text.ofNat m.clauseCount ++ " empty=" ++ truth m.isEmpty ++ "\n" ++
    "max_weight=" ++ number m.encoding.maxWeight ++
    " max_vars_in_clause=" ++ Text.ofNat m.encoding.maxWidth ++ "\n" ++
    "state_bytes=" ++ Text.ofNat memory ++
    " state_only_bytes=" ++ Text.ofNat m.assignmentMemory ++ "\n" ++
    "max_cost_diff=" ++ number largest ++ " min_cost_diff=" ++ number smallest ++ "\n"

/-- An assignment given by digits. -/
def readAssignment (digits : List Char) : Except Trouble (List Bool) :=
  digits.mapM fun c =>
    if c = '0' then .ok false
    else if c = '1' then .ok true
    else .error (.badAssignment c)

/-- The price of a state, and the values of all names. -/
def describe (m : Model) (s : State) : Except Error (String × String) := do
  let price ← Error.ofFault (m.cost s)
  let values ← m.render s
  return (number price, Document.renderValues values)

/-- The price of an assignment. -/
def evaluate (m : Model) (assignment : String) : Except Trouble String := do
  let bits ← readAssignment assignment.toList
  let (price, values) ← (m.startFrom bits >>= describe m).mapError .plain
  return "cost=" ++ price ++ "\n" ++ values ++ "\n"

/-- The random state of a trajectory. -/
def randomLine (m : Model) (seed index : Nat) : Except Error String := do
  let s ← (m.randomState (Generator.trajectory (.ofNat seed) (.ofNat index))).1
  let (price, values) ← describe m s
  return "RANDOM " ++ Text.ofNat index ++ ": cost=" ++ price ++ " " ++ values ++ "\n"

/-- Several random states. -/
def randomLines (m : Model) (seed count : Nat) : Except Error String := do
  return String.join (← (List.range count).mapM (randomLine m seed))

/-- A clause file as a document. -/
def convert (look : File.Lookup) (path : String) : Except Trouble String := do
  let formula ← (readFormula look path).mapError (.reading path)
  let cfg ← (Configuration.ofClauses formula.clauses).mapError .plain
  return Document.render cfg ++ "\n"

/-! ### Commands -/

/-- The width of the counters: the given one, or the narrowest for the widest clause. -/
def chooseWidth (bits? : Option Nat) (m : Model) : Except Trouble CounterWidth :=
  match bits? with
  | none => .ok (.narrowest m.encoding.maxWidth)
  | some bits =>
      match CounterWidth.ofBits? bits with
      | some width => .ok width
      | none => .error (.unsupportedWidth bits)

/-- The model that a command works on. -/
def Command.model (command : Command) (look : File.Lookup) : Except Trouble Model := do
  let m ← (Model.load .thirtyTwo look command.path).mapError (.loading command.path)
  let width ← chooseWidth command.counterBits m
  (m.withWidth width).mapError .plain

/-- **What a command prints.** -/
def Command.output (command : Command) (look : File.Lookup) : Except Trouble String := do
  match command.task with
  | .convert => convert look command.path
  | .profile => (profile (← command.model look)).mapError .plain
  | .evaluate assignment => evaluate (← command.model look) assignment
  | .random seed count => (randomLines (← command.model look) seed count).mapError .plain

/-- The code of a failure: a fault is a different one from an error. -/
def Trouble.exitCode (t : Trouble) : Nat :=
  match t.error? with
  | some (.fault _) => 101
  | _ => 1

/-- The code of malformed arguments. -/
def usageExitCode : Nat := 2

/-- What a command leaves behind. -/
def Command.run (command : Command) (look : File.Lookup) : Outcome :=
  match command.output look with
  | .ok text => ⟨0, text, ""⟩
  | .error trouble => ⟨trouble.exitCode, "", trouble.report⟩

/-- **From arguments to outcome.** -/
def run (look : File.Lookup) (arguments : List String) : Outcome :=
  match parse? arguments with
  | some command => command.run look
  | none => ⟨usageExitCode, "", "usage: maxsat [--counter BITS] [-v] TASK PATH [OPTIONS]\n"⟩

end WeightedSat.CommandLine
