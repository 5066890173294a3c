import WeightedSat.File.Fault
import WeightedSat.Text.Lines
import WeightedSat.Text.Position

/-!
**Files by their path.**

Paths start at a folder whose files are known, or with a slash at the root of all folders.  A path
is a sequence of names divided by slashes; empty names and single dots stand for nothing, double
dots for the folder around.

Main definitions:

* `WeightedSat.File.Entry` — what a path leads to;
* `WeightedSat.File.Folder` — the files of a folder and of the folders inside it;
* `WeightedSat.File.Place` — where the names of a path lead;
* `WeightedSat.File.Folder.find` — what a path leads to in a folder;
* `WeightedSat.File.extension?` — the ending of the name of a file.
-/

set_option relaxedAutoImplicit false
set_option autoImplicit false

namespace WeightedSat.File

/-! ### Paths -/

/-- The names that a path goes through. -/
def names (path : String) : List (List Char) :=
  (Text.pieces '/' path.toList).filter fun name => !name.isEmpty && name != ['.']

/-- **The ending of the name of a file**: what follows its last dot, unless that dot is the first
character. -/
def extension? (path : String) : Option String :=
  match (names path).getLast? with
  | none => none
  | some ['.', '.'] => none
  | some name =>
      let parts := Text.pieces '.' name
      if parts.length ≤ 1 ∨ parts.dropLast = [[]] then none
      else parts.getLast?.map String.ofList

/-- The greatest number of bytes of a name. -/
def maxNameSize : Nat := 255

/-- The greatest number of bytes of a path. -/
def maxPathSize : Nat := 4095

/-- Whether only a folder can stand at the end of a path. -/
def endsInFolder (path : String) : Bool :=
  match path.toList.reverse with
  | '/' :: _ => true
  | '.' :: '/' :: _ => true
  | _ => false

/-! ### Folders -/

/-- What a path leads to. -/
inductive Entry where
  /-- A file with its bytes. -/
  | file (bytes : ByteArray)
  /-- A folder. -/
  | folder

/-- How files are found: by their path. -/
abbrev Lookup := String → Except Fault Entry

/-- The files of a folder and of the folders inside it, by their path from the folder. -/
structure Folder where
  /-- The files; of two with the same path the last one counts. -/
  files : List (String × ByteArray)

/-- Where the names of a path lead. -/
inductive Place where
  /-- Into the folder: the names from there on, none of which leads back. -/
  | inside (place : List (List Char))
  /-- To one of the folders around it. -/
  | around
deriving DecidableEq

/-- The folder around a place; the root has itself around it. -/
def Place.parent : Place → Place
  | .inside [] => .around
  | .inside place => .inside place.dropLast
  | .around => .around

namespace Folder

/-- What stands at a place. -/
def entryAt (folder : Folder) : Place → Except Fault Entry
  | .around => .ok .folder
  | .inside [] => .ok .folder
  | .inside place =>
      match folder.files.reverse.find? fun f => names f.1 = place with
      | some f => .ok (.file f.2)
      | none =>
          if folder.files.any fun f => place.isPrefixOf (names f.1) then .ok .folder
          else .error .missing

/-- One name further from a folder.  Of the folders around nothing is known but that they are
there. -/
def enter (place : Place) (name : List Char) : Except Fault Place :=
  if name = ['.', '.'] then .ok place.parent
  else if maxNameSize < Text.byteSize name then .error .tooLong
  else
    match place with
    | .inside place => .ok (.inside (place ++ [name]))
    | .around => .error .missing

/-- Follows names from a place on. -/
def follow (folder : Folder) (place : Place) : List (List Char) → Except Fault Entry
  | [] => folder.entryAt place
  | name :: rest => do
      match ← folder.entryAt place with
      | .file _ => throw .notFolder
      | .folder => folder.follow (← enter place name) rest

/-- Where a path starts. -/
def startOf (path : String) : Place :=
  if path.toList.head? = some '/' then .around else .inside []

/-- **What a path leads to in a folder.** -/
def find (folder : Folder) : Lookup := fun path => do
  if path.toList.contains '\x00' then throw .zeroByte
  if path.isEmpty then throw .missing
  if maxPathSize < Text.byteSize path.toList then throw .tooLong
  match ← folder.follow (startOf path) (names path) with
  | .file bytes => if endsInFolder path then throw .notFolder else return .file bytes
  | .folder => return .folder

end Folder

end WeightedSat.File
