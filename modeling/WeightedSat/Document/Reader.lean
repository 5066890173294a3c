import WeightedSat.Document.Configuration
import WeightedSat.Document.Skip

/-!
**Reading documents.**

A record may be written as an object, in any order and with unknown members, or as an array of its
fields in their order.  A defect of a record as a whole is placed behind its closing bracket,
if that is what comes next.

Main definitions:

* `WeightedSat.Document.readText`, `WeightedSat.Document.readFloat`,
  `WeightedSat.Document.readInteger`, `WeightedSat.Document.readList` — values of one kind;
* `WeightedSat.Document.RecordReader` — how a record is read;
* `WeightedSat.Document.term`, `WeightedSat.Document.configuration`,
  `WeightedSat.Document.document` — the records of a model document;
* `WeightedSat.Document.parse` — the configuration that a document describes.
-/

set_option relaxedAutoImplicit false
set_option autoImplicit false

namespace WeightedSat.Document

variable {α δ : Type}

/-! ### Values of one kind -/

/-- Fails because the next value is of the wrong kind; a scalar is read, a bracket is not. -/
def wrongType (expected : Expected) : Reader α := do
  match ← peek with
  | some 'n' =>
      advance
      readWord ['u', 'l', 'l']
      failHere (.wrongType .null expected)
  | some 't' =>
      advance
      readWord ['r', 'u', 'e']
      failHere (.wrongType (.boolean true) expected)
  | some 'f' =>
      advance
      readWord ['a', 'l', 's', 'e']
      failHere (.wrongType (.boolean false) expected)
  | some '-' =>
      advance
      failHere (.wrongType (← readNumber true).found expected)
  | some '"' =>
      advance
      failHere (.wrongType (.text (← readString)) expected)
  | some '[' => failHere (.wrongType .sequence expected)
  | some '\x7b' => failHere (.wrongType .map expected)
  | some a =>
      if Text.isDigit a then failHere (.wrongType (← readNumber false).found expected)
      else failAhead .noValue
  | none => failAhead .noValue

/-- A string. -/
def readText : Reader String := do
  match ← peekNext with
  | none => failAhead .endInValue
  | some '"' =>
      advance
      return String.ofList (← readString)
  | some _ => wrongType .text

/-- A number of either kind. -/
def readAnyNumber (expected : Expected) : Reader Number := do
  match ← peekNext with
  | none => failAhead .endInValue
  | some '-' =>
      advance
      readNumber true
  | some a => if Text.isDigit a then readNumber false else wrongType expected

/-- A floating-point number. -/
def readFloat : Reader Float := do
  return (← readAnyNumber .number).toFloat

/-- A signed integer of thirty-two bits. -/
def readInteger : Reader Int := do
  match ← readAnyNumber .integer with
  | .integer n =>
      if FitsSigned 32 n then return n else failHere (.wrongValue n .integer)
  | .float x => failHere (.wrongType (.number x) .integer)

/-! ### Arrays -/

/-- Whether another element follows in an array; `first` before its first one.  The comma in front
of the element is passed, the closing bracket is not. -/
def nextElement (first : Bool) : Reader Bool := do
  match ← peekNext with
  | none => failAhead .endInList
  | some ']' => return false
  | some a =>
      if first then return true
      else if a = ',' then
        advance
        match ← peekNext with
        | none => failAhead .endInValue
        | some ']' => failAhead .trailingComma
        | some _ => return true
      else failAhead .noListSeparator

/-- Where one stands after trying to pass a closing bracket, and why that failed if it did. -/
def tryClose (bracket : Bracket) (c : Cursor) : Cursor × Option Failure :=
  let c := c.skipSpace
  match c.rest with
  | [] => (c, some ⟨c.ahead, bracket.atEnd⟩)
  | a :: _ =>
      if a = bracket.closing then (c.next, none)
      else if a = ',' then
        match bracket with
        | .list =>
            let c := c.next.skipSpace
            let defect := if c.rest.head? = some ']' then Defect.trailingComma else .trailingText
            (c, some ⟨c.ahead, defect⟩)
        | .object => (c, some ⟨c.ahead, .trailingComma⟩)
      else (c, some ⟨c.ahead, .trailingText⟩)

/-- Ends what stands between brackets with its result, or with a defect of it as a whole. -/
def settle (bracket : Bracket) (result : Except Defect α) : Reader α :=
  fun c =>
    match result, tryClose bracket c with
    | .error defect, (c, _) => .error ⟨c.offset, defect⟩
    | .ok _, (_, some failure) => .error failure
    | .ok a, (c, none) => .ok (a, c)

/-- One element of an array, or its end. -/
def listStep (element : Reader α) (read : List α) : Reader (List α ⊕ List α) := do
  if ← nextElement read.isEmpty then return .inl ((← element) :: read)
  else return .inr read.reverse

/-- An array. -/
def readList (element : Reader α) : Reader (List α) := do
  match ← peekNext with
  | none => failAhead .endInValue
  | some '[' =>
      advance
      settle .list (.ok (← loop (listStep element) []))
  | some _ => wrongType .sequence

/-! ### Records -/

/-- How the member of an object that holds a field is read; `δ` holds the fields read so far. -/
structure FieldReader (δ : Type) where
  /-- Whether the field has been read before. -/
  isRead : δ → Bool
  /-- Reads the field. -/
  read : δ → Reader δ

/-- How a record is read. -/
structure RecordReader (δ α : Type) where
  /-- Its name in messages. -/
  expected : Expected
  /-- No field. -/
  none : δ
  /-- The field with a given key. -/
  field? : List Char → Option (FieldReader δ)
  /-- The record with the fields read, unless one is absent. -/
  finish : δ → Except Defect α
  /-- The fields written as the elements of an array. -/
  positional : Reader (Except Defect α)

/-- Whether another member follows in an object; `first` before its first one.  Everything in front
of the key is passed, and its first quotation mark; the closing bracket is not. -/
def nextKey (first : Bool) : Reader Bool := do
  match ← peekNext with
  | none => failAhead .endInObject
  | some '\x7d' => return false
  | some a =>
      if first then
        if a = '"' then
          advance
          return true
        else failAhead .badKey
      else if a = ',' then
        advance
        match ← peekNext with
        | none => failAhead .endInValue
        | some '"' =>
            advance
            return true
        | some '\x7d' => failAhead .trailingComma
        | some _ => failAhead .badKey
      else failAhead .noObjectSeparator

/-- One member of an object, or its end. -/
def memberStep (field? : List Char → Option (FieldReader δ)) (state : Bool × δ) :
    Reader ((Bool × δ) ⊕ Except Defect δ) := do
  let (first, fields) := state
  if ← nextKey first then
    let key ← readString
    match field? key with
    | none =>
        readColon
        skipValue
        return .inl (false, fields)
    | some f =>
        if f.isRead fields then return .inr (.error (.duplicateField (String.ofList key)))
        else
          readColon
          return .inl (false, ← f.read fields)
  else return .inr (.ok fields)

/-- **A record**, as an object or as an array. -/
def RecordReader.read (record : RecordReader δ α) : Reader α := do
  match ← peekNext with
  | Option.none => failAhead .endInValue
  | some '[' =>
      advance
      settle .list (← record.positional)
  | some '\x7b' =>
      advance
      let fields ← loop (memberStep record.field?) (true, record.none)
      settle .object (fields.bind record.finish)
  | some _ => wrongType record.expected

/-! ### The records of a model document -/

/-- The weight of a term that gives none. -/
def defaultWeight : Float := 1.0

/-- The fields of a term read so far. -/
structure TermFields where
  /-- The weight. -/
  weight? : Option Float
  /-- The signed literals. -/
  ids? : Option (List Int)

/-- The fields of a term by key. -/
def termField? (key : List Char) : Option (FieldReader TermFields) :=
  if key = "c".toList then
    some ⟨(·.weight?.isSome), fun t => do return { t with weight? := some (← readFloat) }⟩
  else if key = "ids".toList then
    some ⟨(·.ids?.isSome), fun t => do return { t with ids? := some (← readList readInteger) }⟩
  else none

/-- A term; its weight may be left out of an object. -/
def term : RecordReader TermFields Term where
  expected := .term
  none := ⟨none, none⟩
  field? := termField?
  finish t :=
    match t.ids? with
    | some ids => .ok ⟨t.weight?.getD defaultWeight, ids⟩
    | none => .error (.missingField "ids")
  positional := do
    let weight? ← if ← nextElement true then some <$> readFloat else pure none
    if ← nextElement weight?.isNone then
      return .ok ⟨weight?.getD defaultWeight, ← readList readInteger⟩
    else return .error (.wrongLength 1 .term)

/-- The fields of a configuration read so far. -/
structure ConfigurationFields where
  /-- The kind of model. -/
  kind? : Option String
  /-- The version of the model. -/
  version? : Option String
  /-- The terms. -/
  terms? : Option (List Term)

/-- The fields of a configuration by key. -/
def configurationField? (key : List Char) : Option (FieldReader ConfigurationFields) :=
  if key = "type".toList then
    some ⟨(·.kind?.isSome), fun t => do return { t with kind? := some (← readText) }⟩
  else if key = "version".toList then
    some ⟨(·.version?.isSome), fun t => do return { t with version? := some (← readText) }⟩
  else if key = "terms".toList then
    some ⟨(·.terms?.isSome), fun t => do return { t with terms? := some (← readList term.read) }⟩
  else none

/-- A configuration; its terms may be left out. -/
def configuration : RecordReader ConfigurationFields Configuration where
  expected := .configuration
  none := ⟨none, none, none⟩
  field? := configurationField?
  finish t :=
    match t.kind?, t.version? with
    | some kind, some version => .ok ⟨kind, version, t.terms?.getD []⟩
    | none, _ => .error (.missingField "type")
    | _, none => .error (.missingField "version")
  positional := do
    if ← nextElement true then
      let kind ← readText
      if ← nextElement false then
        let version ← readText
        if ← nextElement false then return .ok ⟨kind, version, ← readList term.read⟩
        else return .ok ⟨kind, version, []⟩
      else return .error (.wrongLength 1 .configuration)
    else return .error (.wrongLength 0 .configuration)

/-- The only field of a document by key. -/
def documentField? (key : List Char) : Option (FieldReader (Option Configuration)) :=
  if key = "cost_function".toList then
    some ⟨(·.isSome), fun _ => do return some (← configuration.read)⟩
  else none

/-- A document. -/
def document : RecordReader (Option Configuration) Configuration where
  expected := .document
  none := none
  field? := documentField?
  finish t :=
    match t with
    | some cfg => .ok cfg
    | none => .error (.missingField "cost_function")
  positional := do
    if ← nextElement true then return .ok (← configuration.read)
    else return .error (.wrongLength 0 .document)

/-- A document with nothing but blanks behind it. -/
def wholeDocument : Reader Configuration := do
  let cfg ← document.read
  if (← peekNext).isSome then failAhead .trailingText
  return cfg

/-- The configuration that characters describe. -/
def parseChars (text : List Char) : Except Error Configuration :=
  match wholeDocument ⟨text, 0⟩ with
  | .ok (cfg, _) => .ok cfg
  | .error failure => .error (.document (.after text failure.offset) failure.defect)

/-- **The configuration that a document describes.** -/
def parse (text : String) : Except Error Configuration :=
  parseChars text.toList

end WeightedSat.Document
