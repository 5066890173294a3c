import WeightedSat.Proofs.Document.Written
import WeightedSat.Proofs.Terms

/-!
**Terms in a document.**

Main definitions:

* `WeightedSat.Document.wholeText` — a document on one line that describes terms.

Main results:

* `WeightedSat.Document.reads_term` — a term is read;
* `WeightedSat.Document.parse_wholeText` — **a document of terms is read as these terms**.
-/

set_option relaxedAutoImplicit false
set_option autoImplicit false

namespace WeightedSat.Document

/-! ### The text -/

/-- An object on one line, by its members. -/
def object (members : List (String × List Char)) : List Char :=
  inline '\x7b' '\x7d' ((members.map fun m => (m.1.toList, m.2)).map inlineMember)

/-- A term on one line. -/
def wholeTerm (t : WholeTerm) : List Char :=
  object [("c", Text.digits t.weight), ("ids", inline '[' ']' (t.ids.map Text.signedDigits))]

/-- **A document on one line that describes terms.** -/
def wholeText (terms : List WholeTerm) : String :=
  String.ofList (object [("cost_function", object
    [("type", quoted "maxsat".toList), ("version", quoted "1.0".toList),
      ("terms", inline '[' ']' (terms.map wholeTerm))])])

/-! ### Reading it -/

/-- All on one line. -/
def oneLine : Arrangement := fun _ => .oneLine

theorem object_eq (members : List (String × List Char)) :
    object members = writtenObject .oneLine members :=
  inline_eq_arranged _ _ _

theorem wholeTerm_eq (t : WholeTerm) :
    wholeTerm t = writtenTerm oneLine (Text.digits t.weight) t.ids := by
  rw [wholeTerm, object_eq, inline_eq_arranged]
  rfl

theorem toList_wholeText (terms : List WholeTerm) :
    (wholeText terms).toList = writtenDocument oneLine (quoted "maxsat".toList)
      (quoted "1.0".toList) (terms.map wholeTerm) := by
  rw [wholeText, String.toList_ofList, object_eq, object_eq, inline_eq_arranged]
  rfl

/-- **A term is read.** -/
theorem reads_term {t : WholeTerm} (h : t.Fits) : Reads term.read (wholeTerm t) t.toTerm := by
  have hweight := reads_readFloat (n := t.weight) h.le
  rw [wholeTerm_eq]
  exact answers_some_iff.1 (answers_writtenTerm (answers_some_iff.2 hweight) h.ids)

/-- **A document of terms is read as these terms.** -/
theorem parse_wholeText {terms : List WholeTerm} (h : ∀ t ∈ terms, t.Fits) :
    parse (wholeText terms) = .ok ⟨"maxsat", "1.0", terms.map WholeTerm.toTerm⟩ := by
  have hterms : ∀ t ∈ terms, StartsElement (wholeTerm t) ∧
      Answers term.read (wholeTerm t) (some t.toTerm) := by
    intro t ht
    exact ⟨⟨'\x7b', _, rfl, rfl, by decide⟩, answers_some_iff.2 (reads_term (h t ht))⟩
  have hkind : Reads readText (quoted "maxsat".toList) "maxsat" := reads_readText_quoted (by decide)
  have hversion : Reads readText (quoted "1.0".toList) "1.0" := reads_readText_quoted (by decide)
  have hread := parseChars_writtenDocument (a := oneLine) hkind hversion hterms areBlank_nil
  rw [List.append_nil, ← toList_wholeText, mapM_some_eq_map] at hread
  exact toOption_eq_some_iff.1 hread

example : wholeText [⟨3, [1, -2]⟩] = "\x7b\"cost_function\": \x7b\"type\": \"maxsat\", " ++
    "\"version\": \"1.0\", \"terms\": [\x7b\"c\": 3, \"ids\": [1, -2]\x7d]\x7d\x7d" := by decide

end WeightedSat.Document
