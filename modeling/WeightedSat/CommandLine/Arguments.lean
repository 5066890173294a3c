import WeightedSat.Text.Numeral

/-!
**The arguments of the command line.**

The name of a task comes first, then the path it works on and its options, in any order.  The
options that belong to no task may also stand before its name.  A value follows its option as the
next argument or after an equals sign; `--` ends the options.

Main definitions:

* `WeightedSat.CommandLine.Task` — what is to be done;
* `WeightedSat.CommandLine.Command` — a task with the path it works on;
* `WeightedSat.CommandLine.Level` — what has been given before or behind the name of the task;
* `WeightedSat.CommandLine.parse?` — the command that arguments stand for.
-/

set_option relaxedAutoImplicit false
set_option autoImplicit false

namespace WeightedSat.CommandLine

/-- What is to be done with a file. -/
inductive Task where
  /-- Prints the statistics of its model. -/
  | profile
  /-- Prints the price of an assignment. -/
  | evaluate (assignment : String)
  /-- Prints random states. -/
  | random (seed count : Nat)
  /-- Prints a clause file as a document. -/
  | convert
deriving DecidableEq

/-- A task with the path it works on. -/
structure Command where
  /-- The task. -/
  task : Task
  /-- The path. -/
  path : String
  /-- The width of the counters in bits, if given. -/
  counterBits : Option Nat
deriving DecidableEq

/-! ### Options -/

/-- The options with a value. -/
inductive OptionName where
  /-- The width of the counters. -/
  | counter
  /-- The assignment to evaluate. -/
  | assign
  /-- The seed of random states. -/
  | seed
  /-- The number of random states. -/
  | count
deriving DecidableEq

/-- The option with a given name. -/
def OptionName.ofWord? (word : String) : Option OptionName :=
  if word = "counter" then some .counter
  else if word = "assign" then some .assign
  else if word = "seed" then some .seed
  else if word = "count" then some .count
  else none

/-- What has been given before or behind the name of the task. -/
structure Level where
  /-- The width of the counters. -/
  counter : Option Nat
  /-- Whether more is to be logged. -/
  verbose : Bool
  /-- The assignment to evaluate. -/
  assign : Option String
  /-- The seed of random states. -/
  seed : Option Nat
  /-- The number of random states. -/
  count : Option Nat
  /-- The arguments that are no options, the last one first. -/
  operands : List String
  /-- The option whose value comes next. -/
  pending : Option OptionName
  /-- Whether the options have ended. -/
  ended : Bool

/-- Nothing given. -/
def Level.start : Level := ⟨none, false, none, none, none, [], none, false⟩

/-- Whether an argument is no option: it starts with no hyphen, or is nothing else. -/
def isOperand (argument : String) : Bool :=
  argument.toList.head? ≠ some '-' || argument = "-"

/-- A number of bits: a word of thirty-two bits, where a zero may have a minus sign. -/
def readBits? (text : List Char) : Option Nat :=
  (Text.readInt? text).bind fun n =>
    if 0 ≤ n ∧ n < wordCount 32 then some n.toNat else none

namespace Level

/-- Sets a value that has not been set before. -/
def setOnce {α : Type} (old new : Option α) : Option (Option α) :=
  match old, new with
  | none, some a => some (some a)
  | _, _ => none

/-- The value of an option, which may be given once. -/
def store (l : Level) (name : OptionName) (value : String) : Option Level :=
  let number (bits : Nat) := Text.readWord? bits value.toList
  match name with
  | .counter =>
      (setOnce l.counter (readBits? value.toList)).map fun v => { l with counter := v }
  | .assign => (setOnce l.assign (some value)).map fun v => { l with assign := v }
  | .seed => (setOnce l.seed (number 64)).map fun v => { l with seed := v }
  | .count => (setOnce l.count (number 64)).map fun v => { l with count := v }

/-- The flag for more logging, which may be given once. -/
def setVerbose (l : Level) : Option Level :=
  if l.verbose then none else some { l with verbose := true }

/-- An option, behind its two hyphens. -/
def takeLong (admitted : List OptionName) (l : Level) (text : List Char) : Option Level :=
  if text = "verbose".toList then l.setVerbose
  else
    let name := text.takeWhile (· ≠ '=')
    match OptionName.ofWord? (String.ofList name) with
    | none => none
    | some option =>
        if !admitted.contains option then none
        else
          match text.drop name.length with
          | [] => some { l with pending := some option }
          | _ :: value => l.store option (String.ofList value)

/-- One argument. -/
def take (admitted : List OptionName) (l : Level) (argument : String) : Option Level :=
  if l.ended then some { l with operands := argument :: l.operands }
  else
    match l.pending with
    | some option =>
        if isOperand argument then ({ l with pending := none }).store option argument else none
    | none =>
        if isOperand argument then some { l with operands := argument :: l.operands }
        else if argument = "--" then some { l with ended := true }
        else if argument = "-v" then l.setVerbose
        else
          match argument.toList with
          | '-' :: '-' :: text => takeLong admitted l text
          | _ => none

end Level

/-! ### Commands -/

/-- What stands before the name of the task, that name, and what follows it. -/
def splitAtTask? (l : Level) : List String → Option (Level × String × List String)
  | [] => none
  | argument :: rest =>
      if !l.ended && l.pending.isNone && isOperand argument then some (l, argument, rest)
      else
        match l.take [.counter] argument with
        | none => none
        | some l => splitAtTask? l rest

/-- The options of a task. -/
def optionsOf (task : String) : List OptionName :=
  if task = "eval" then [.counter, .assign]
  else if task = "random" then [.counter, .seed, .count]
  else [.counter]

/-- The task with a given name and the options behind it. -/
def task? (name : String) (l : Level) : Option Task :=
  if name = "profile" then some .profile
  else if name = "eval" then l.assign.map .evaluate
  else if name = "random" then some (.random (l.seed.getD 0) (l.count.getD 1))
  else if name = "convert" then some .convert
  else none

/-- **The command that arguments stand for**, if they are well formed. -/
def parse? (arguments : List String) : Option Command := do
  let (before, name, rest) ← splitAtTask? .start arguments
  let behind ← rest.foldlM (Level.take (optionsOf name)) .start
  if behind.pending.isSome then none
  let [path] := behind.operands | none
  return ⟨← task? name behind, path, behind.counter <|> before.counter⟩

end WeightedSat.CommandLine
