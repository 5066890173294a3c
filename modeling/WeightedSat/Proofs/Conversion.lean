import WeightedSat.CommandLine.Run
import WeightedSat.Proofs.Descriptions
import WeightedSat.Proofs.Dimacs.NormalForm
import WeightedSat.Proofs.Document.ReadBack
import WeightedSat.Proofs.Document.WholeWeights
import WeightedSat.Proofs.Loading
import WeightedSat.Proofs.Terms

/-!
**Converting clause files to documents.**

A clause file that can be loaded can always be converted.  The document holds the clauses in their
order, with their literals in order, and it is read as clauses with these literals.  Their weights
are what is read of the written ones, and documents are not read by correct rounding: so the
document is loaded as the same model exactly when each weight is read back.  Where one is not, a
model that is loaded has the same variables in the same clauses, with other weights.

Main definitions:

* `WeightedSat.Clause.reread?` — **what is read of a written clause**;
* `WeightedSat.Model.EqualButWeights` — models that differ in their weights alone;
* `WeightedSat.Model.LoadedFromDocument` — **what is loaded from the document of clauses**.

Main results:

* `WeightedSat.Configuration.ofClauses_eq_ok` — clauses in strict form can be described;
* `WeightedSat.Encoding.ofActive_congr` — tables of the same literals differ in their weights alone;
* `WeightedSat.Model.load_render` — **what is loaded from the description of clauses**;
* `WeightedSat.Model.load_convert` — **what is loaded from a converted clause file**.
-/

set_option relaxedAutoImplicit false
set_option autoImplicit false

namespace WeightedSat

/-! ### The description of clauses -/

namespace Configuration

variable {clauses : List Clause} (h : ∀ c ∈ clauses, c.checkNames = .ok ())

include h

/-- **Clauses in strict form can be described.** -/
theorem ofClauses_eq_ok : ofClauses clauses =
    .ok ⟨Model.identifier, Model.version, clauses.map Term.describing⟩ :=
  ofClauses_eq_ok_iff.2 ⟨fun c hc => (Clause.isStrict_iff.2 (h c hc)).fitsSigned, rfl⟩

/-- What is described are these clauses. -/
theorem clauses_describing (kind version : String) :
    Configuration.clauses ⟨kind, version, clauses.map Term.describing⟩ = .ok clauses :=
  clauses_describing_eq_ok_iff.2 ⟨fun c hc => Clause.isStrict_iff.2 (h c hc), rfl⟩

/-- The literals of the description are signed numbers of thirty-two bits. -/
theorem fits_describing (kind version : String) :
    Configuration.Fits ⟨kind, version, clauses.map Term.describing⟩ := by
  intro t ht x hx
  obtain ⟨c, hc, rfl⟩ := List.mem_map.1 ht
  obtain ⟨l, hl, rfl⟩ := List.mem_map.1 hx
  exact (Clause.isStrict_iff.2 (h c hc)).fitsSigned l hl

end Configuration

/-! ### What is read of written clauses -/

/-- **What is read of a written clause**: its literals, and what is read of its weight. -/
def Clause.reread? (c : Clause) : Option Clause :=
  (Document.reread? c.weight).map fun weight => ⟨weight, c.literals⟩

theorem Clause.reread?_eq_some_iff {c d : Clause} :
    c.reread? = some d ↔ Document.reread? c.weight = some d.weight ∧ d.literals = c.literals := by
  obtain ⟨weight, literals⟩ := d
  rw [reread?, Option.map_eq_some_iff]
  constructor
  · rintro ⟨w, hw, heq⟩
    cases heq
    exact ⟨hw, rfl⟩
  · rintro ⟨hw, hliterals⟩
    exact ⟨weight, hw, by rw [← hliterals]⟩

/-- The description of clauses is read as that of what is read of them. -/
theorem Configuration.reread?_describing (kind version : String) (clauses : List Clause) :
    Configuration.reread? ⟨kind, version, clauses.map Term.describing⟩ =
      (clauses.mapM Clause.reread?).map fun cs => ⟨kind, version, cs.map Term.describing⟩ := by
  have hterms : (clauses.map Term.describing).mapM Term.reread? =
      (clauses.mapM Clause.reread?).map (List.map Term.describing) := by
    induction clauses with
    | nil => rfl
    | cons c cs ih =>
        rw [List.map_cons, List.mapM_cons, List.mapM_cons, ih, Term.reread?, Clause.reread?]
        change (Option.map _ (Document.reread? c.weight)).bind _ = _
        cases Document.reread? c.weight with
        | none => rfl
        | some weight => cases cs.mapM Clause.reread? <;> rfl
  rw [Configuration.reread?, hterms, Option.map_map]
  rfl

/-- A clause without its weight. -/
def Clause.unweighted (c : Clause) : Clause :=
  ⟨0.0, c.literals⟩

/-- No literal is lost, nor is the order of the clauses or of their literals. -/
theorem map_unweighted_of_reread? {clauses cs : List Clause}
    (h : clauses.mapM Clause.reread? = some cs) :
    cs.map Clause.unweighted = clauses.map Clause.unweighted := by
  rw [eq_comm, ← List.forall₂_eq_eq_eq, List.forall₂_map_left_iff, List.forall₂_map_right_iff]
  refine (mapM_eq_some_iff.1 h).imp ?_
  intro c d hd
  rw [Clause.unweighted, Clause.unweighted, (Clause.reread?_eq_some_iff.1 hd).2]

theorem ne_nil_of_reread? {clauses cs : List Clause} (h : clauses.mapM Clause.reread? = some cs)
    (hne : clauses ≠ []) : cs ≠ [] := by
  rintro rfl
  exact hne (List.map_eq_nil_iff.1 (map_unweighted_of_reread? h).symm)

/-- **Clauses in strict form are read as such.** -/
theorem checkNames_of_reread? {clauses cs : List Clause}
    (h : clauses.mapM Clause.reread? = some cs) (hstrict : ∀ c ∈ clauses, c.checkNames = .ok ()) :
    ∀ c ∈ cs, c.checkNames = .ok () := by
  have hunweighted : ∀ c ∈ clauses.map Clause.unweighted, c.checkNames = .ok () :=
    List.forall_mem_map.2 hstrict
  rw [← map_unweighted_of_reread? h] at hunweighted
  exact List.forall_mem_map.1 hunweighted

theorem mapM_reread?_self_iff {clauses : List Clause} :
    clauses.mapM Clause.reread? = some clauses ↔
      ∀ c ∈ clauses, Document.reread? c.weight = some c.weight := by
  rw [mapM_eq_some_iff, List.forall₂_same]
  simp only [Clause.reread?_eq_some_iff, and_true]

/-! ### Models that differ in their weights -/

/-- **Models that differ in their weights alone.** -/
def Model.EqualButWeights (m m' : Model) : Prop :=
  m'.width = m.width ∧ m'.encoding? = m.encoding?.map fun e =>
    { e with weights := m'.encoding.weights, maxWeight := m'.encoding.maxWeight }

namespace Encoding

theorem distinctNames_unweighted (cs : List Clause) :
    distinctNames (cs.map Clause.unweighted) = distinctNames cs := by
  rw [distinctNames, List.flatMap_map]
  rfl

theorem occurrences_unweighted (cs : List Clause) :
    occurrences (cs.map Clause.unweighted) = occurrences cs := by
  rw [occurrences, List.zipIdx_map, List.flatMap_map]
  rfl

/-- **Tables of the same literals differ in their weights alone.** -/
theorem ofActive_congr {cs ds : List Clause}
    (h : ds.map Clause.unweighted = cs.map Clause.unweighted) (freeNames : List Nat) :
    ofActive ds freeNames = { ofActive cs freeNames with
      weights := (ofActive ds freeNames).weights
      maxWeight := (ofActive ds freeNames).maxWeight } := by
  have hnames : distinctNames ds = distinctNames cs := by
    rw [← distinctNames_unweighted, h, distinctNames_unweighted]
  have hoccurrences : occurrences ds = occurrences cs := by
    rw [← occurrences_unweighted, h, occurrences_unweighted]
  have hwidths : ds.map Clause.width = cs.map Clause.width := by
    have hwidth := congrArg (List.map Clause.width) h
    rwa [List.map_map, List.map_map] at hwidth
  simp only [ofActive, hnames, hoccurrences, hwidths]

/-- Clauses in strict form are all active, and no name is free. -/
theorem eq_ofActive_of_build {cs : List Clause} {e : Encoding} (h : build cs = .ok e)
    (hstrict : ∀ c ∈ cs, c.checkNames = .ok ()) : e = ofActive cs [] := by
  have hdistinct : ∀ c ∈ cs, c.names.Nodup := fun c hc =>
    (Clause.checkNames_eq_ok_iff.1 (hstrict c hc)).2.1
  have hfree : freeNamesOf cs = [] := by
    have hnone : cs.filter (·.isTautology) = [] := by
      rw [List.filter_eq_nil_iff]
      intro c hc
      rw [Clause.isTautology_eq_false (hdistinct c hc)]
      exact Bool.false_ne_true
    rw [freeNamesOf, hnone]
    rfl
  obtain ⟨-, -, he⟩ := build_eq_ok_iff.1 h
  rwa [activeClauses_eq_self hdistinct, hfree] at he

end Encoding

namespace Model

variable {m : Model} {width : CounterWidth} {look : File.Lookup} {path : String}
  {clauses : List Clause} {blanks : String}

/-! ### Loading what was converted -/

/-- The description of clauses configures a model as the clauses do. -/
theorem configureFrom_describing {before : Model} (hne : clauses ≠ [])
    (hstrict : ∀ c ∈ clauses, c.checkNames = .ok ()) :
    before.configureFrom ⟨identifier, version, clauses.map Term.describing⟩ = .ok m ↔
      before.configure clauses = .ok m := by
  rw [configureFrom_eq_ok_iff, Configuration.clauses_describing hstrict]
  constructor
  · rintro ⟨-, -, -, _, ⟨⟩, hm⟩
    exact hm
  · intro hm
    exact ⟨rfl, rfl, mt List.map_eq_nil_iff.1 hne, clauses, rfl, hm⟩

/-- **What is loaded from the description of clauses**: the model of what is read of them. -/
theorem load_render (hne : clauses ≠ []) (hstrict : ∀ c ∈ clauses, c.checkNames = .ok ())
    (hblanks : Document.AreBlank blanks.toList)
    (hending : File.extension? path = some documentFileEnding)
    (hfile : look path = .ok (.file (Document.render
      ⟨identifier, version, clauses.map Term.describing⟩ ++ blanks).toUTF8)) :
    load width look path = .ok m ↔
      ∃ cs, clauses.mapM Clause.reread? = some cs ∧ ofClauses width cs = .ok m := by
  have hread := Document.parse_render (Configuration.fits_describing hstrict identifier version)
    hblanks
  rw [Configuration.reread?_describing] at hread
  have hdescribed : ∀ cs, clauses.mapM Clause.reread? = some cs →
      ((unconfigured width).configureFrom ⟨identifier, version, cs.map Term.describing⟩ = .ok m ↔
        ofClauses width cs = .ok m) := fun _ hcs =>
    configureFrom_describing (ne_nil_of_reread? hcs hne) (checkNames_of_reread? hcs hstrict)
  rw [load_document hending, readConfiguration_text hfile, bind_eq_ok_iff]
  simp only [← @toOption_eq_some_iff _ _ (Document.parse _), hread, Option.map_eq_some_iff]
  constructor
  · rintro ⟨_, ⟨cs, hcs, rfl⟩, hm⟩
    exact ⟨cs, hcs, (hdescribed cs hcs).1 hm⟩
  · rintro ⟨cs, hcs, hm⟩
    exact ⟨_, ⟨cs, hcs, rfl⟩, (hdescribed cs hcs).2 hm⟩

theorem eq_ofActive_of_ofClauses (h : ofClauses width clauses = .ok m)
    (hstrict : ∀ c ∈ clauses, c.checkNames = .ok ()) :
    m = ⟨width, some (Encoding.ofActive clauses [])⟩ := by
  obtain ⟨e, hbuild, -, rfl⟩ := configure_eq_ok_iff.1 h
  rw [Encoding.eq_ofActive_of_build hbuild hstrict]
  rfl

/-- What is read of clauses makes a model that differs in its weights alone. -/
theorem equalButWeights_of_reread? {m' : Model} {cs : List Clause}
    (hstrict : ∀ c ∈ clauses, c.checkNames = .ok ()) (hm : ofClauses width clauses = .ok m)
    (hread : clauses.mapM Clause.reread? = some cs) (hm' : ofClauses width cs = .ok m') :
    m.EqualButWeights m' := by
  obtain rfl := eq_ofActive_of_ofClauses hm hstrict
  obtain rfl := eq_ofActive_of_ofClauses hm' (checkNames_of_reread? hread hstrict)
  refine ⟨rfl, ?_⟩
  exact congrArg some (Encoding.ofActive_congr (map_unweighted_of_reread? hread) [])

/-- Clauses that differ in their weights alone and make the same model are the same. -/
theorem eq_of_ofClauses {cs : List Clause} (hstrict : ∀ c ∈ clauses, c.checkNames = .ok ())
    (hm : ofClauses width clauses = .ok m) (hread : clauses.mapM Clause.reread? = some cs)
    (hm' : ofClauses width cs = .ok m) : cs = clauses := by
  have hpairs : ∀ cs : List Clause, cs.map (fun c => (c.weight, c.unweighted)) =
      (cs.map Clause.weight).zip (cs.map Clause.unweighted) := fun cs => List.zip_map'.symm
  have hinjective : Function.Injective fun c : Clause => (c.weight, c.unweighted) := by
    rintro ⟨w, literals⟩ ⟨w', literals'⟩ heq
    cases heq
    rfl
  have hencoding := (eq_ofActive_of_ofClauses hm' (checkNames_of_reread? hread hstrict)).symm.trans
    (eq_ofActive_of_ofClauses hm hstrict)
  have hweights : cs.map Clause.weight = clauses.map Clause.weight := by
    have harrays := congrArg (fun m => m.encoding.weights.toList) hencoding
    exact (List.cons.inj harrays).2
  refine hinjective.list_map ?_
  rw [hpairs, hpairs, hweights, map_unweighted_of_reread? hread]

/-! ### Converting -/

/-- **What is loaded from the document of clauses** that make a model: the model of what is read of
them. -/
structure LoadedFromDocument (width : CounterWidth) (clauses : List Clause) (m : Model)
    (loaded : Except Error Model) : Prop where
  /-- The model of the clauses with the weights that are read. -/
  loaded_iff : ∀ m', loaded = .ok m' ↔
    ∃ cs, clauses.mapM Clause.reread? = some cs ∧ ofClauses width cs = .ok m'
  /-- Whatever the weights, the variables and their occurrences are those of the clauses. -/
  equalButWeights : ∀ m', loaded = .ok m' → m.EqualButWeights m'
  /-- It is the same model exactly when each weight is read back. -/
  same_iff : loaded = .ok m ↔ ∀ c ∈ clauses, Document.reread? c.weight = some c.weight
  /-- Whole weights are read back. -/
  whole : (∀ c ∈ clauses, ∃ n, 10 * n ≤ 2 ^ 53 ∧ c.weight = Document.floatOfNat n) → loaded = .ok m

theorem loadedFromDocument (hne : clauses ≠ []) (hstrict : ∀ c ∈ clauses, c.checkNames = .ok ())
    (hm : ofClauses width clauses = .ok m) (hblanks : Document.AreBlank blanks.toList)
    (hending : File.extension? path = some documentFileEnding)
    (hfile : look path = .ok (.file (Document.render
      ⟨identifier, version, clauses.map Term.describing⟩ ++ blanks).toUTF8)) :
    LoadedFromDocument width clauses m (load width look path) := by
  have hloaded : ∀ m', load width look path = .ok m' ↔
      ∃ cs, clauses.mapM Clause.reread? = some cs ∧ ofClauses width cs = .ok m' :=
    fun _ => load_render hne hstrict hblanks hending hfile
  have hsame : load width look path = .ok m ↔
      ∀ c ∈ clauses, Document.reread? c.weight = some c.weight := by
    rw [hloaded, ← mapM_reread?_self_iff]
    constructor
    · rintro ⟨cs, hread, hm'⟩
      rwa [eq_of_ofClauses hstrict hm hread hm'] at hread
    · exact fun hread => ⟨clauses, hread, hm⟩
  refine ⟨hloaded, ?_, hsame, ?_⟩
  · intro m' hload
    obtain ⟨cs, hread, hm'⟩ := (hloaded m').1 hload
    exact equalButWeights_of_reread? hstrict hm hread hm'
  · intro hwhole
    refine hsame.2 fun c hc => ?_
    obtain ⟨n, hn, hweight⟩ := hwhole c hc
    rw [hweight]
    exact Document.reread?_floatOfNat hn

/-- The clauses of a clause file that makes a model are in strict form. -/
theorem checkNames_of_parse {text : String} {f : Formula} (hparse : Dimacs.parse text = .ok f)
    (hm : ofClauses width f.clauses = .ok m) : ∀ c ∈ f.clauses, c.checkNames = .ok () := by
  intro c hc
  obtain ⟨e, hbuild, -⟩ := configure_eq_ok_iff.1 hm
  obtain ⟨hne, -, hadmitted⟩ := Encoding.admitted_of_build hbuild hc
  have hwritable := (Dimacs.Denotes.of_parseChars hparse).isWritableClause c hc
  exact Clause.checkNames_eq_ok_iff.2 ⟨hne, hwritable.distinct, hadmitted⟩

theorem convert_eq_ok {text : String} {f : Formula} (hfile : look path = .ok (.file text.toUTF8))
    (hparse : Dimacs.parse text = .ok f) {cfg : Configuration}
    (hdescribed : Configuration.ofClauses f.clauses = .ok cfg) :
    CommandLine.convert look path = .ok (Document.render cfg ++ "\n") := by
  rw [CommandLine.convert, readFormula_text hfile, hparse]
  change Except.mapError _ (Configuration.ofClauses f.clauses) >>= _ = _
  rw [hdescribed]
  rfl

/-- **What is loaded from a converted clause file.**  A clause file that can be loaded can be
converted, and the document is loaded as the model of the same clauses with the weights that are
read of the written ones: as the same model exactly when each is read back. -/
theorem load_convert {text ending : String} (hending : File.extension? path = some ending)
    (hmem : ending ∈ clauseFileEndings) (hfile : look path = .ok (.file text.toUTF8))
    (hload : load width look path = .ok m) :
    ∃ f cfg, Dimacs.parse text = .ok f ∧ Configuration.ofClauses f.clauses = .ok cfg ∧
      CommandLine.convert look path = .ok (Document.render cfg ++ "\n") ∧
      ∀ (look' : File.Lookup) (path' blanks : String), File.extension? path' = some "json" →
        Document.AreBlank blanks.toList →
        look' path' = .ok (.file (Document.render cfg ++ blanks).toUTF8) →
        LoadedFromDocument width f.clauses m (load width look' path') := by
  rw [load_clauseFile hending hmem, readFormula_text hfile] at hload
  obtain ⟨f, hparse, hm⟩ := bind_eq_ok_iff.1 hload
  have hstrict := checkNames_of_parse hparse hm
  have hne : f.clauses ≠ [] :=
    List.length_pos_iff.1 (Dimacs.Denotes.of_parseChars hparse).expressible.one_le
  have hdescribed := Configuration.ofClauses_eq_ok hstrict
  refine ⟨f, _, hparse, hdescribed, convert_eq_ok hfile hparse hdescribed, ?_⟩
  intro look' path' blanks hdocument hblanks hfile'
  exact loadedFromDocument hne hstrict hm hblanks hdocument hfile'

/-! ### Files to convert -/

/-- Files that all hold one text. -/
def everyFile (text : String) : File.Lookup :=
  fun _ => .ok (.file text.toUTF8)

theorem areBlank_newline : Document.AreBlank "\n".toList := by
  simp [Document.AreBlank, Document.Cursor.isSpace]

/-- Whole weights: the document is loaded as the same model. -/
theorem load_convert_sample : ∃ m document,
    load .thirtyTwo (everyFile "p wcnf 2 2\n3 1 -2 0\n5 2 0\n") "weights.wcnf" = .ok m ∧
      CommandLine.convert (everyFile "p wcnf 2 2\n3 1 -2 0\n5 2 0\n") "weights.wcnf" =
        .ok document ∧
      load .thirtyTwo (everyFile document) "weights.json" = .ok m := by
  have hending : File.extension? "weights.wcnf" = some "wcnf" := by decide
  have hparse : Dimacs.parse "p wcnf 2 2\n3 1 -2 0\n5 2 0\n" = .ok (Formula.ofClauses .weighted none
      [⟨3.0, [⟨1, true⟩, ⟨2, false⟩]⟩, ⟨5.0, [⟨2, true⟩]⟩]) := rfl
  obtain ⟨m, hm⟩ : ∃ m, ofClauses .thirtyTwo
      [⟨3.0, [⟨1, true⟩, ⟨2, false⟩]⟩, ⟨5.0, [⟨2, true⟩]⟩] = .ok m := ⟨_, rfl⟩
  have hload : load .thirtyTwo (everyFile "p wcnf 2 2\n3 1 -2 0\n5 2 0\n") "weights.wcnf" =
      .ok m := by
    rw [load_clauseFile hending (by decide), readFormula_text rfl, hparse]
    exact hm
  obtain ⟨f, cfg, hf, -, hconvert, hdocument⟩ := load_convert hending (by decide) rfl hload
  obtain rfl := Except.ok.inj (hparse.symm.trans hf)
  have hloaded := hdocument (everyFile (Document.render cfg ++ "\n")) "weights.json" "\n"
    (by decide) areBlank_newline rfl
  refine ⟨m, _, hload, hconvert, hloaded.whole ?_⟩
  simp only [Formula.ofClauses, List.forall_mem_cons]
  exact ⟨⟨3, by decide, rfl⟩, ⟨5, by decide, rfl⟩, List.forall_mem_nil _⟩

/-- **A weight that is not kept**: the document is loaded as another model. -/
theorem exists_load_convert_ne : ∃ text m document m',
    load .thirtyTwo (everyFile text) "weights.wcnf" = .ok m ∧
      CommandLine.convert (everyFile text) "weights.wcnf" = .ok document ∧
      load .thirtyTwo (everyFile document) "weights.json" = .ok m' ∧
      m.encoding.weights = #[0.0, 9007199254740991.0] ∧
      m'.encoding.weights = #[0.0, 9007199254740990.0] := by
  have hending : File.extension? "weights.wcnf" = some "wcnf" := by decide
  have hparse : Dimacs.parse "p wcnf 1 1\n9007199254740991 1 0\n" = .ok
      (Formula.ofClauses .weighted none [⟨9007199254740991.0, [⟨1, true⟩]⟩]) := rfl
  obtain ⟨m, hm⟩ : ∃ m, ofClauses .thirtyTwo [⟨9007199254740991.0, [⟨1, true⟩]⟩] = .ok m := ⟨_, rfl⟩
  obtain ⟨m', hm'⟩ : ∃ m', ofClauses .thirtyTwo [⟨9007199254740990.0, [⟨1, true⟩]⟩] = .ok m' :=
    ⟨_, rfl⟩
  have hload : load .thirtyTwo (everyFile "p wcnf 1 1\n9007199254740991 1 0\n") "weights.wcnf" =
      .ok m := by
    rw [load_clauseFile hending (by decide), readFormula_text rfl, hparse]
    exact hm
  have hstrict := checkNames_of_parse hparse hm
  have hconvert : CommandLine.convert (everyFile "p wcnf 1 1\n9007199254740991 1 0\n")
      "weights.wcnf" = .ok _ := convert_eq_ok rfl hparse (Configuration.ofClauses_eq_ok hstrict)
  have hread : [(⟨9007199254740991.0, [⟨1, true⟩]⟩ : Clause)].mapM Clause.reread? =
      some [⟨9007199254740990.0, [⟨1, true⟩]⟩] := by
    rw [mapM_eq_some_iff, List.forall₂_cons, Clause.reread?_eq_some_iff]
    exact ⟨⟨Document.reread?_ne_self, rfl⟩, .nil⟩
  have hdocument : File.extension? "weights.json" = some documentFileEnding := by decide
  have hloaded : load .thirtyTwo (everyFile _) "weights.json" = .ok m' :=
    (load_render (by simp [Formula.ofClauses]) hstrict areBlank_newline hdocument rfl).2
      ⟨_, hread, hm'⟩
  refine ⟨_, m, _, m', hload, hconvert, hloaded, ?_, ?_⟩
  · cases hm
    rfl
  · cases hm'
    rfl

end Model

end WeightedSat
