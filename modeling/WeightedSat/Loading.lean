import WeightedSat.Dimacs.Reader
import WeightedSat.Document.Reader
import WeightedSat.File.Folder

/-!
**Loading formulas and models from files.**

Main definitions:

* `WeightedSat.readFormula` — the formula that a clause file holds;
* `WeightedSat.readConfiguration` — the configuration that a document file describes;
* `WeightedSat.Model.load` — the model of a file, whose ending tells its format.
-/

set_option relaxedAutoImplicit false
set_option autoImplicit false

namespace WeightedSat

/-- **The formula that a clause file holds.**  A folder can be opened like a file; reading its first
line fails. -/
def readFormula (look : File.Lookup) (path : String) : Except Error Formula :=
  match look path with
  | .error cause => .error (.cannotOpen path cause)
  | .ok .folder => Dimacs.parseLines [.error .isFolder]
  | .ok (.file bytes) => Dimacs.parseBytes bytes

/-- **The configuration that a document file describes.** -/
def readConfiguration (look : File.Lookup) (path : String) : Except Error Configuration :=
  match look path with
  | .error cause => .error (.cannotRead path cause)
  | .ok .folder => .error (.cannotRead path .isFolder)
  | .ok (.file bytes) =>
      match String.fromUTF8? bytes with
      | none => .error (.cannotRead path .notText)
      | some text => Document.parse text

/-- The endings of clause files. -/
def clauseFileEndings : List String := ["cnf", "wcnf"]

/-- The ending of document files. -/
def documentFileEnding : String := "json"

/-- **The model of a file**, whose ending tells its format. -/
def Model.load (width : CounterWidth) (look : File.Lookup) (path : String) :
    Except Error Model := do
  match File.extension? path with
  | none => throw (.unsupportedFile path)
  | some ending =>
      if clauseFileEndings.contains ending then
        Model.ofClauses width (← readFormula look path).clauses
      else if ending = documentFileEnding then
        (Model.unconfigured width).configureFrom (← readConfiguration look path)
      else throw (.unsupportedFile path)

end WeightedSat
