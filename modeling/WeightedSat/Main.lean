import WeightedSat.CommandLine.Run

/-!
**The program.**

Main definitions:

* `WeightedSat.readEntry` — what a path leads to on this machine;
* `main` — runs the command line.
-/

set_option relaxedAutoImplicit false
set_option autoImplicit false

namespace WeightedSat

/-- The number of a system error; some system calls hand it over negated. -/
def errorNumber (code : UInt32) : UInt32 :=
  min code (0 - code)

/-- Why a file cannot be read. -/
def faultOf : IO.Error → File.Fault
  | .permissionDenied .. => .denied
  | .inappropriateType _ code _ => if errorNumber code = 20 then .notFolder else .isFolder
  | .invalidArgument _ code _ => if errorNumber code = 36 then .tooLong else .missing
  | _ => .missing

/-- What a path leads to on this machine. -/
def readEntry (path : String) : IO (Except File.Fault File.Entry) := do
  try
    return .ok (.file (← IO.FS.readBinFile path))
  catch e =>
    match faultOf e with
    | .isFolder => return .ok .folder
    | fault => return .error fault

end WeightedSat

/-- Runs the command line; of all files only the one that the command names is read. -/
def main (arguments : List String) : IO UInt32 := do
  let path := ((WeightedSat.CommandLine.parse? arguments).map (·.path)).getD ""
  let entry ← WeightedSat.readEntry path
  let outcome := WeightedSat.CommandLine.run (fun _ => entry) arguments
  IO.print outcome.output
  IO.eprint outcome.report
  return outcome.exit.toUInt32
