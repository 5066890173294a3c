import WeightedSat.Proofs.Document.Numbers
import WeightedSat.Proofs.Document.Records

/-!
**Reading a document in any layout.**

A document of terms may stand on one line or have a line for each element.  What is read of it is
the same: the configuration whose terms are what its terms are read as, and nothing where one of
them is refused.

Main definitions:

* `WeightedSat.Document.Arrangement` — the blanks of a document, by depth;
* `WeightedSat.Document.writtenTerm`, `WeightedSat.Document.writtenDocument` — **documents of
  terms**.

Main results:

* `WeightedSat.Document.answers_writtenTerm` — a term is read as its weight is;
* `WeightedSat.Document.parseChars_writtenDocument` — **what is read of a document of terms**.
-/

set_option relaxedAutoImplicit false
set_option autoImplicit false

namespace WeightedSat.Document

variable {β : Type}

/-! ### The text -/

/-- The blanks of a document: those between the brackets of each depth. -/
abbrev Arrangement := Nat → Spacing

/-- An object, by its members. -/
def writtenObject (s : Spacing) (members : List (String × List Char)) : List Char :=
  arranged '\x7b' '\x7d' s ((members.map fun m => (m.1.toList, m.2)).map inlineMember)

/-- A term, by the text of its weight. -/
def writtenTerm (a : Arrangement) (weight : List Char) (ids : List Int) : List Char :=
  writtenObject (a 3)
    [("c", weight), ("ids", arranged '[' ']' (a 4) (ids.map Text.signedDigits))]

/-- A configuration, by the texts of its parts. -/
def writtenConfiguration (a : Arrangement) (kind version : List Char)
    (terms : List (List Char)) : List Char :=
  writtenObject (a 1)
    [("type", kind), ("version", version), ("terms", arranged '[' ']' (a 2) terms)]

/-- **A document**, by the texts of the parts of its configuration. -/
def writtenDocument (a : Arrangement) (kind version : List Char) (terms : List (List Char)) :
    List Char :=
  writtenObject (a 0) [("cost_function", writtenConfiguration a kind version terms)]

/-! ### Terms -/

variable {a : Arrangement}

theorem startsElement_signedDigits (x : Int) : StartsElement (Text.signedDigits x) := by
  rw [Text.signedDigits]
  split
  · exact ⟨'-', _, rfl, rfl, by decide⟩
  · obtain ⟨c, ds, hcons, hc⟩ := Text.exists_digits_eq_cons x.natAbs
    refine ⟨c, ds, hcons, isSpace_of_isDigit hc, ?_⟩
    rintro rfl
    cases hc

/-- Where every element is read, so is the list. -/
theorem mapM_some_eq_map {γ : Type} (f : β → γ) (xs : List β) :
    xs.mapM (fun x => some (f x)) = some (xs.map f) :=
  List.mapM_pure

/-- The literals of a term are read. -/
theorem reads_ids {ids : List Int} (h : ∀ x ∈ ids, FitsSigned 32 x) (s : Spacing) :
    Reads (readList readInteger) (arranged '[' ']' s (ids.map Text.signedDigits)) ids := by
  have hread : Answers (readList readInteger) (arranged '[' ']' s (ids.map Text.signedDigits))
      (ids.mapM fun x => some (id x)) := by
    refine answers_readList fun x hx => ⟨startsElement_signedDigits x, ?_⟩
    exact answers_some_iff.2 (reads_readInteger (h x hx))
  rw [mapM_some_eq_map id, List.map_id] at hread
  exact answers_some_iff.1 hread

theorem startsElement_writtenTerm (weight : List Char) (ids : List Int) :
    StartsElement (writtenTerm a weight ids) :=
  ⟨'\x7b', _, rfl, rfl, by decide⟩

/-- **A term is read as its weight is**, and refused where its weight is. -/
theorem answers_writtenTerm {weight : List Char} {ids : List Int} {x? : Option Float}
    (hweight : Answers readFloat weight x?) (hids : ∀ x ∈ ids, FitsSigned 32 x) :
    Answers term.read (writtenTerm a weight ids) (x?.map fun x => ⟨x, ids⟩) := by
  have hfirst : MemberAnswers term.field? term.none ("c".toList, weight)
      (x?.map fun x => ⟨some x, none⟩) :=
    .of_value (by decide) rfl rfl rfl hweight skipsSpace_readFloat
  have hlist := answers_some_iff.2 (reads_ids hids (a 4))
  have hsecond : ∀ x, MemberAnswers term.field? ⟨some x, none⟩
      ("ids".toList, arranged '[' ']' (a 4) (ids.map Text.signedDigits))
      ((some ids).map fun ids => ⟨some x, some ids⟩) :=
    fun _ => .of_value (by decide) rfl rfl rfl hlist (skipsSpace_readList _)
  cases x? with
  | none => exact (MembersRead.refused hfirst).answers
  | some x => exact (MembersRead.cons hfirst (hsecond x).membersRead).answers

/-! ### Documents -/

section Document

variable {write : β → List Char} {answer : β → Option Term} {xs : List β}
  {kindText versionText : List Char} {kind version : String}

/-- A configuration is read as its terms are. -/
theorem answers_writtenConfiguration (hkind : Reads readText kindText kind)
    (hversion : Reads readText versionText version)
    (hterms : ∀ x ∈ xs, StartsElement (write x) ∧ Answers term.read (write x) (answer x)) :
    Answers configuration.read (writtenConfiguration a kindText versionText (xs.map write))
      ((xs.mapM answer).map fun terms => ⟨kind, version, terms⟩) := by
  have hlist : Answers (readList term.read) (arranged '[' ']' (a 2) (xs.map write))
      (xs.mapM answer) := answers_readList hterms
  have hfirst : MemberAnswers configuration.field? configuration.none ("type".toList, kindText)
      ((some kind).map fun kind => ⟨some kind, none, none⟩) :=
    .of_value (by decide) rfl rfl rfl (answers_some_iff.2 hkind) skipsSpace_readText
  have hsecond : MemberAnswers configuration.field? ⟨some kind, none, none⟩
      ("version".toList, versionText)
      ((some version).map fun version => ⟨some kind, some version, none⟩) :=
    .of_value (by decide) rfl rfl rfl (answers_some_iff.2 hversion) skipsSpace_readText
  have hthird : MemberAnswers configuration.field? ⟨some kind, some version, none⟩
      ("terms".toList, arranged '[' ']' (a 2) (xs.map write))
      ((xs.mapM answer).map fun terms => ⟨some kind, some version, some terms⟩) :=
    .of_value (by decide) rfl rfl rfl hlist (skipsSpace_readList _)
  have hanswers := (MembersRead.cons hfirst (.cons hsecond hthird.membersRead)).answers (s := a 1)
  rw [Option.bind_map] at hanswers
  rw [Option.map_eq_bind]
  exact hanswers

/-- A document is read as its configuration is. -/
theorem answers_writtenDocument {cfg? : Option Configuration} {terms : List (List Char)}
    (h : Answers configuration.read (writtenConfiguration a kindText versionText terms) cfg?) :
    Answers document.read (writtenDocument a kindText versionText terms) cfg? := by
  have honly : MemberAnswers document.field? document.none
      ("cost_function".toList, writtenConfiguration a kindText versionText terms)
      (cfg?.map some) :=
    .of_value (by decide) rfl rfl rfl h (skipsSpace_record configuration)
  have hanswers := honly.membersRead.answers (s := a 0)
  cases cfg? <;> exact hanswers

/-- **What is read of a document of terms**, with blanks behind it: what its terms are read as. -/
theorem parseChars_writtenDocument (hkind : Reads readText kindText kind)
    (hversion : Reads readText versionText version)
    (hterms : ∀ x ∈ xs, StartsElement (write x) ∧ Answers term.read (write x) (answer x))
    {blanks : List Char} (hblanks : AreBlank blanks) :
    (parseChars (writtenDocument a kindText versionText (xs.map write) ++ blanks)).toOption =
      (xs.mapM answer).map fun terms => ⟨kind, version, terms⟩ := by
  have hanswers : Answers document.read _ _ :=
    answers_writtenDocument (a := a) (answers_writtenConfiguration hkind hversion hterms)
  have hdelimited : Delimited blanks := fun c hc =>
    mem_delimiters_of_isSpace (hblanks c (List.mem_of_mem_head? hc))
  have hend : Ends wholeDocument
      ⟨writtenDocument a kindText versionText (xs.map write) ++ blanks, 0⟩ []
      ((xs.mapM answer).map fun terms => ⟨kind, version, terms⟩) := by
    rw [wholeDocument, ← Option.bind_fun_some (Option.map _ _)]
    refine (hanswers blanks 0 hdelimited).bind fun cfg offset _ => ?_
    obtain ⟨offset', hpeek⟩ := skipsSpace_peekNext.blanks hblanks [] offset
    rw [List.append_nil] at hpeek
    exact .of_eq (bind_apply (hpeek.trans rfl) _) (.value rfl)
  rw [parseChars]
  cases hanswer : (xs.mapM answer).map fun terms => Configuration.mk kind version terms with
  | none =>
      rw [hanswer] at hend
      cases hend with
      | failure hfail => rw [hfail]; rfl
  | some cfg =>
      rw [hanswer] at hend
      cases hend with
      | value hread => rw [hread]; rfl

end Document

end WeightedSat.Document
