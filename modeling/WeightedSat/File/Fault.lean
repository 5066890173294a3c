/-!
**Why a file cannot be read.**

Main definitions:

* `WeightedSat.File.Fault` — the causes;
* `WeightedSat.File.Fault.message` — their wording.
-/

set_option relaxedAutoImplicit false
set_option autoImplicit false

namespace WeightedSat.File

/-- Why a file cannot be read. -/
inductive Fault where
  /-- Nothing has this name. -/
  | missing
  /-- Access is refused. -/
  | denied
  /-- A part of the path that should be a folder is a file. -/
  | notFolder
  /-- The path names a folder. -/
  | isFolder
  /-- The path, or one of its names, has too many bytes. -/
  | tooLong
  /-- The path holds a zero byte, which no name can. -/
  | zeroByte
  /-- The bytes are no UTF-8 text. -/
  | notText
deriving DecidableEq

/-- The wording of a cause. -/
def Fault.message : Fault → String
  | .missing => "No such file or directory (os error 2)"
  | .denied => "Permission denied (os error 13)"
  | .notFolder => "Not a directory (os error 20)"
  | .isFolder => "Is a directory (os error 21)"
  | .tooLong => "File name too long (os error 36)"
  | .zeroByte => "file name contained an unexpected NUL byte"
  | .notText => "stream did not contain valid UTF-8"

end WeightedSat.File
