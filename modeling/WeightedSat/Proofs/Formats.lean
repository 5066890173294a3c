import WeightedSat.Proofs.Dimacs.Terms
import WeightedSat.Proofs.Document.Terms
import WeightedSat.Proofs.Loading

/-!
**The two formats agree.**

Terms can be put in a document or in a clause file, and a model can be loaded from either.  The
formats reject what describes no clause in different places: a document by its strict form, after it
has been read, a clause file word by word.  Both load a model exactly when the terms describe
clauses that can be encoded, and the model is then the one of these clauses.

Main results:

* `WeightedSat.Dimacs.writable_of_build` — clauses in strict form that can be encoded can be
  written;
* `WeightedSat.Model.load_wholeText_document`, `WeightedSat.Model.load_wholeText_clauseFile` — what
  is loaded from either format;
* `WeightedSat.Model.load_wholeText_agree` — **the two formats agree**.
-/

set_option relaxedAutoImplicit false
set_option autoImplicit false

namespace WeightedSat

/-- **Clauses in strict form that can be encoded can be written**: encoding admits fewer names and
fewer clauses than a clause file can hold. -/
theorem Dimacs.writable_of_build {clauses : List Clause} {e : Encoding} (hne : clauses ≠ [])
    (hbuild : Encoding.build clauses = .ok e) (hdistinct : ∀ c ∈ clauses, c.names.Nodup) :
    Writable (Formula.ofClauses .weighted none clauses) := by
  have hlength := Encoding.length_le_of_build hbuild hdistinct
  have hclauses : ∀ c ∈ clauses, IsWritableClause .weighted c := by
    intro c hc
    obtain ⟨hliterals, hweight, hnames⟩ := Encoding.admitted_of_build hbuild hc
    refine ⟨hliterals, hdistinct c hc, ?_, hweight⟩
    intro l hl
    have hname := hnames l hl
    rw [Clause.admitsName, Bool.and_eq_true, decide_eq_true_iff, decide_eq_true_iff] at hname
    exact Or.inl hname
  have hnames : clauses.flatMap Clause.names ≠ [] := by
    obtain ⟨c, hc⟩ := List.exists_mem_of_ne_nil clauses hne
    obtain ⟨l, hl⟩ := List.exists_mem_of_ne_nil c.literals (hclauses c hc).ne_nil
    exact List.ne_nil_of_mem (List.mem_flatMap.2 ⟨c, hc, List.mem_map_of_mem hl⟩)
  have hmax : Encoding.maxClauses ≤ 2 ^ 32 - 1 := by decide
  have htop : IsWritableTop .weighted none := by simp [IsWritableTop]
  exact ⟨List.length_pos_iff.2 hne, hlength.trans hmax, hclauses, isGreatest_largestNameOf hnames,
    htop⟩

namespace Model

variable {m : Model} {width : CounterWidth} {look : File.Lookup} {path : String}
  {terms : List WholeTerm}

/-- The model of the clauses that terms describe, of which there is one or more. -/
def IsModelOf (terms : List WholeTerm) (width : CounterWidth) (m : Model) : Prop :=
  terms ≠ [] ∧ ∃ clauses, List.Forall₂ WholeTerm.Describes terms clauses ∧
    ofClauses width clauses = .ok m

/-- **What is loaded from a document of terms.** -/
theorem load_wholeText_document (hfits : ∀ t ∈ terms, t.Fits)
    (hending : File.extension? path = some documentFileEnding)
    (hfile : look path = .ok (.file (Document.wholeText terms).toUTF8)) :
    load width look path = .ok m ↔ IsModelOf terms width m := by
  have hclauses : ∀ clauses,
      Configuration.clauses ⟨identifier, version, terms.map WholeTerm.toTerm⟩ = .ok clauses ↔
        List.Forall₂ WholeTerm.Describes terms clauses := by
    intro clauses
    rw [Configuration.clauses, mapM_eq_ok_iff, List.forall₂_map_left_iff]
    simp only [WholeTerm.toClause_eq_ok_iff]
  rw [load_document hending, readConfiguration_text hfile, Document.parse_wholeText hfits,
    bind_eq_ok_iff]
  constructor
  · rintro ⟨cfg, hcfg, hm⟩
    cases hcfg
    obtain ⟨-, -, hne, clauses, hread, hm⟩ := configureFrom_eq_ok_iff.1 hm
    exact ⟨mt (congrArg _) hne, clauses, (hclauses clauses).1 hread, hm⟩
  · rintro ⟨hne, clauses, hdescribes, hm⟩
    refine ⟨_, rfl, configureFrom_eq_ok_iff.2 ⟨rfl, rfl, ?_, clauses, ?_, hm⟩⟩
    · exact mt List.map_eq_nil_iff.1 hne
    · exact (hclauses clauses).2 hdescribes

/-- **What is loaded from a clause file of terms.** -/
theorem load_wholeText_clauseFile (hfits : ∀ t ∈ terms, t.Fits) {ending : String}
    (hending : File.extension? path = some ending) (hmem : ending ∈ clauseFileEndings)
    (hfile : look path = .ok (.file (Dimacs.wholeText terms).toUTF8)) :
    load width look path = .ok m ↔ IsModelOf terms width m := by
  rw [load_clauseFile hending hmem, readFormula_text hfile, bind_eq_ok_iff]
  constructor
  · rintro ⟨f, hread, hm⟩
    obtain ⟨e, hbuild, -, -⟩ := configure_eq_ok_iff.1 hm
    -- names beyond the strict form are read, but not encoded
    have hadmitted : ∀ c ∈ f.clauses, ∀ l ∈ c.literals, Clause.admitsName l.name = true :=
      fun _ hc => (Encoding.admitted_of_build hbuild hc).2.2
    obtain ⟨hne, hdescribes⟩ := Dimacs.describes_of_parse hfits hread hadmitted
    exact ⟨hne, f.clauses, hdescribes, hm⟩
  · rintro ⟨hne, clauses, hdescribes, hm⟩
    obtain ⟨e, hbuild, -, -⟩ := configure_eq_ok_iff.1 hm
    have hclauses : clauses ≠ [] := by
      rintro rfl
      cases hdescribes
      exact hne rfl
    have hdistinct : ∀ c ∈ clauses, c.names.Nodup := by
      intro c hc
      obtain ⟨i, hi, rfl⟩ := List.getElem_of_mem hc
      exact (hdescribes.get (hdescribes.length_eq ▸ hi) hi).distinct
    have hwritable := Dimacs.writable_of_build hclauses hbuild hdistinct
    exact ⟨_, Dimacs.parse_wholeText_eq_ok hfits hdescribes hwritable, hm⟩

/-- **The two formats agree.**  Terms with whole weights are loaded from a document exactly when
they are from a clause file, and then as the same model: that of the clauses which the terms
describe. -/
theorem load_wholeText_agree (width : CounterWidth) (hfits : ∀ t ∈ terms, t.Fits)
    {documentPath clausePath : String}
    (hdocument : File.extension? documentPath = some "json")
    (hclause : File.extension? clausePath = some "wcnf")
    (hdocumentFile : look documentPath = .ok (.file (Document.wholeText terms).toUTF8))
    (hclauseFile : look clausePath = .ok (.file (Dimacs.wholeText terms).toUTF8)) :
    (load width look documentPath).toOption = (load width look clausePath).toOption ∧
      ∀ m, load width look documentPath = .ok m ↔ IsModelOf terms width m := by
  have hloaded : ∀ m, load width look documentPath = .ok m ↔ IsModelOf terms width m :=
    fun _ => load_wholeText_document hfits hdocument hdocumentFile
  have hloaded' : ∀ m, load width look clausePath = .ok m ↔ IsModelOf terms width m :=
    fun _ => load_wholeText_clauseFile hfits hclause (by decide) hclauseFile
  refine ⟨Option.ext fun m => ?_, hloaded⟩
  rw [toOption_eq_some_iff, toOption_eq_some_iff, hloaded, hloaded']

/-! ### Terms to try both formats on -/

/-- Two files that hold the same terms in the two formats. -/
def sampleFiles (terms : List WholeTerm) : File.Lookup
  | "terms.json" => .ok (.file (Document.wholeText terms).toUTF8)
  | "terms.wcnf" => .ok (.file (Dimacs.wholeText terms).toUTF8)
  | _ => .error .missing

/-- Two terms; the weight of the first is not a floating-point number. -/
def sampleTerms : List WholeTerm :=
  [⟨2 ^ 64 - 1, [1, -2]⟩, ⟨5, [2]⟩]

/-- Terms are loaded from both formats as one model, and a zero among literals keeps both from being
loaded. -/
theorem load_wholeText_agree_sample :
    (∃ m, load .eight (sampleFiles sampleTerms) "terms.json" = .ok m ∧
      load .eight (sampleFiles sampleTerms) "terms.wcnf" = .ok m) ∧
    (load .eight (sampleFiles [⟨3, [1, 0, -2]⟩]) "terms.json").toOption = none ∧
      (load .eight (sampleFiles [⟨3, [1, 0, -2]⟩]) "terms.wcnf").toOption = none := by
  have hdocument : File.extension? "terms.json" = some "json" := by decide
  have hclause : File.extension? "terms.wcnf" = some "wcnf" := by decide
  constructor
  · have hfile : sampleFiles sampleTerms "terms.json" =
        .ok (.file (Document.wholeText sampleTerms).toUTF8) := rfl
    obtain ⟨hagree, hloaded⟩ := load_wholeText_agree .eight (by decide) hdocument hclause hfile rfl
    have hdescribes : List.Forall₂ WholeTerm.Describes sampleTerms
        [⟨18446744073709551616.0, [⟨1, true⟩, ⟨2, false⟩]⟩, ⟨5.0, [⟨2, true⟩]⟩] :=
      .cons ⟨by decide, by simp [Literal.ofSigned?], by decide, by decide, by decide⟩
        (.cons ⟨by decide, by simp [Literal.ofSigned?], by decide, by decide, by decide⟩ .nil)
    obtain ⟨m, hm⟩ : ∃ m, ofClauses .eight
        [⟨18446744073709551616.0, [⟨1, true⟩, ⟨2, false⟩]⟩, ⟨5.0, [⟨2, true⟩]⟩] = .ok m := ⟨_, rfl⟩
    have hload := (hloaded m).2 ⟨by decide, _, hdescribes, hm⟩
    rw [hload] at hagree
    exact ⟨m, hload, toOption_eq_some_iff.1 hagree.symm⟩
  · have hfile : sampleFiles [⟨3, [1, 0, -2]⟩] "terms.json" =
        .ok (.file (Document.wholeText [⟨3, [1, 0, -2]⟩]).toUTF8) := rfl
    obtain ⟨hagree, hloaded⟩ := load_wholeText_agree .eight (by decide) hdocument hclause hfile rfl
    rw [← hagree, and_self, Option.eq_none_iff_forall_ne_some]
    intro m hm
    obtain ⟨-, _, hdescribes, -⟩ := (hloaded m).1 (toOption_eq_some_iff.1 hm)
    obtain ⟨_, _, hterm, -, -⟩ := List.forall₂_cons_left_iff.1 hdescribes
    obtain ⟨_, _, -, hrest, -⟩ := List.forall₂_cons_left_iff.1 hterm.literals
    obtain ⟨_, _, hzero, -, -⟩ := List.forall₂_cons_left_iff.1 hrest
    cases hzero

end Model

end WeightedSat
