import WeightedSat.Document.Configuration

/-!
**Writing documents.**

A document is written with two blanks of indentation per level and one element or member per line;
what has no elements stands on one line.

Main definitions:

* `WeightedSat.Document.bracketed` — elements between brackets, one per line;
* `WeightedSat.Document.render` — a configuration as a document;
* `WeightedSat.Document.renderValues` — the values of names on one line.
-/

set_option relaxedAutoImplicit false
set_option autoImplicit false

namespace WeightedSat.Document

/-- The start of a line at a given depth. -/
def indent (depth : Nat) : List Char :=
  '\n' :: List.replicate (2 * depth) ' '

/-- The elements after the first one, each on a line of its own. -/
def further (depth : Nat) (items : List (List Char)) : List Char :=
  items.flatMap fun item => ',' :: indent depth ++ item

/-- Elements between brackets; `depth` is that of the brackets. -/
def bracketed (depth : Nat) (opening closing : Char) : List (List Char) → List Char
  | [] => [opening, closing]
  | item :: items =>
      opening :: indent (depth + 1) ++ item ++ further (depth + 1) items ++
        indent depth ++ [closing]

/-- A member of an object. -/
def member (key : String) (value : List Char) : List Char :=
  Text.encode key.toList ++ ':' :: ' ' :: value

/-- A term, at depth three. -/
def termChars (t : Term) : List Char :=
  bracketed 3 '\x7b' '\x7d'
    [member "c" (numberLayout.write t.weight),
      member "ids" (bracketed 4 '[' ']' (t.ids.map Text.signedDigits))]

/-- A configuration, at depth one. -/
def configurationChars (cfg : Configuration) : List Char :=
  bracketed 1 '\x7b' '\x7d'
    [member "type" (Text.encode cfg.kind.toList), member "version" (Text.encode cfg.version.toList),
      member "terms" (bracketed 2 '[' ']' (cfg.terms.map termChars))]

/-- A document as characters. -/
def renderChars (cfg : Configuration) : List Char :=
  bracketed 0 '\x7b' '\x7d' [member "cost_function" (configurationChars cfg)]

/-- **A configuration as a document.** -/
def render (cfg : Configuration) : String :=
  String.ofList (renderChars cfg)

/-! ### Values of names -/

/-- A name with its value as a member of an object on one line. -/
def valueChars (entry : Nat × Bool) : List Char :=
  Text.encode (Text.digits entry.1) ++ [':', if entry.2 then '1' else '0']

/-- The values of names as an object on one line. -/
def renderValues (entries : List (Nat × Bool)) : String :=
  String.ofList ('\x7b' :: [','].intercalate (entries.map valueChars) ++ ['\x7d'])

end WeightedSat.Document
