import WeightedSat.Proofs.Document.Reread
import WeightedSat.Proofs.Document.Written
import WeightedSat.Proofs.Results

/-!
**Written documents are read back, up to their weights.**

A configuration is written with a line for each element.  Its texts and literals are read back as
they are, and its weights as what is read of written numbers.

Main definitions:

* `WeightedSat.Term.reread?`, `WeightedSat.Configuration.reread?` — **what is read of a written term
  or configuration**.

Main results:

* `WeightedSat.Document.renderChars_eq` — the layout of a written document;
* `WeightedSat.Document.parse_render` — **what is read of a written document**.
-/

set_option relaxedAutoImplicit false
set_option autoImplicit false

namespace WeightedSat

/-- What is read of a written term: the number that is read of its weight, and its literals. -/
def Term.reread? (t : Term) : Option Term :=
  (Document.reread? t.weight).map fun weight => ⟨weight, t.ids⟩

/-- **What is read of a written configuration**, nothing where one of its weights is refused. -/
def Configuration.reread? (cfg : Configuration) : Option Configuration :=
  (cfg.terms.mapM Term.reread?).map fun terms => ⟨cfg.kind, cfg.version, terms⟩

/-- The literals of a configuration are signed numbers of thirty-two bits. -/
def Configuration.Fits (cfg : Configuration) : Prop :=
  ∀ t ∈ cfg.terms, ∀ x ∈ t.ids, FitsSigned 32 x

namespace Document

/-- A member in its text. -/
theorem member_eq {key : String} (hkey : ArePlain key.toList) (value : List Char) :
    member key value = inlineMember (key.toList, value) := by
  rw [member, inlineMember, hkey.encode_eq]

theorem termChars_eq (t : Term) :
    termChars t = writtenTerm Spacing.lines (numberLayout.write t.weight) t.ids := by
  rw [termChars, bracketed_eq_arranged, bracketed_eq_arranged, member_eq (by decide),
    member_eq (by decide)]
  rfl

/-- **The layout of a written document.** -/
theorem renderChars_eq (cfg : Configuration) :
    renderChars cfg = writtenDocument Spacing.lines (Text.encode cfg.kind.toList)
      (Text.encode cfg.version.toList) (cfg.terms.map termChars) := by
  rw [renderChars, configurationChars, bracketed_eq_arranged, bracketed_eq_arranged,
    bracketed_eq_arranged, member_eq (by decide), member_eq (by decide), member_eq (by decide),
    member_eq (by decide)]
  rfl

/-- **What is read of a written document**, whatever blanks follow it. -/
theorem parse_render {cfg : Configuration} (h : cfg.Fits) {blanks : String}
    (hblanks : AreBlank blanks.toList) :
    (parse (render cfg ++ blanks)).toOption = cfg.reread? := by
  have hterms : ∀ t ∈ cfg.terms, StartsElement (termChars t) ∧
      Answers term.read (termChars t) t.reread? := by
    intro t ht
    rw [termChars_eq]
    exact ⟨startsElement_writtenTerm _ _,
      answers_writtenTerm (answers_readFloat_write t.weight) (h t ht)⟩
  have hread := parseChars_writtenDocument (a := Spacing.lines) (reads_readText cfg.kind)
    (reads_readText cfg.version) hterms hblanks
  rw [parse, render, String.toList_append, String.toList_ofList, renderChars_eq, hread,
    Configuration.reread?]

end Document

end WeightedSat
