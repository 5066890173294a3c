import WeightedSat.Loading
import WeightedSat.Proofs.Configured
import WeightedSat.Proofs.Results

/-!
**What is loaded from files.**

Both formats end in the same place: whatever a file holds, its model is that of a list of clauses.

Main results:

* `WeightedSat.Model.configureFrom_eq_ok_iff` — when a document configures a model;
* `WeightedSat.Model.load_document`, `WeightedSat.Model.load_clauseFile` — loading by the ending;
* `WeightedSat.Model.exists_clauses_of_load` — **every loaded model is one of clauses**;
* `WeightedSat.readConfiguration_text`, `WeightedSat.readFormula_text` — files that hold a text.
-/

set_option relaxedAutoImplicit false
set_option autoImplicit false

namespace WeightedSat

/-! ### Loading by the ending -/

namespace Model

variable {m : Model} {width : CounterWidth} {look : File.Lookup} {path : String}

/-- **A document configures a model** exactly when it is meant for it, has a term, and describes
clauses that do. -/
theorem configureFrom_eq_ok_iff {before : Model} {cfg : Configuration} :
    before.configureFrom cfg = .ok m ↔
      cfg.kind = identifier ∧ cfg.version = version ∧ cfg.terms ≠ [] ∧
        ∃ clauses, cfg.clauses = .ok clauses ∧ before.configure clauses = .ok m := by
  rw [configureFrom, ← bind_eq_ok_iff]
  by_cases hkind : cfg.kind = identifier
  · by_cases hversion : cfg.version = version
    · cases hterms : cfg.terms with
      | nil => simp [hkind, hversion, throw, throwThe, MonadExceptOf.throw, bind, Except.bind]
      | cons t ts => simp [hkind, hversion, bind, Except.bind]
    · simp [hkind, hversion, throw, throwThe, MonadExceptOf.throw, bind, Except.bind]
  · simp [hkind, throw, throwThe, MonadExceptOf.throw, bind, Except.bind]

theorem load_document (h : File.extension? path = some documentFileEnding) :
    load width look path = readConfiguration look path >>= (unconfigured width).configureFrom := by
  rw [load, h]
  rfl

theorem load_clauseFile {ending : String} (h : File.extension? path = some ending)
    (hending : ending ∈ clauseFileEndings) :
    load width look path = readFormula look path >>= fun f => ofClauses width f.clauses := by
  have hcontains : clauseFileEndings.contains ending = true := List.contains_iff_mem.2 hending
  rw [load, h]
  simp only [hcontains, if_true]

/-- **Every loaded model is one of clauses.** -/
theorem exists_clauses_of_load (h : load width look path = .ok m) :
    ∃ clauses, ofClauses width clauses = .ok m := by
  cases hending : File.extension? path with
  | none =>
      rw [load, hending] at h
      cases h
  | some ending =>
      by_cases hclause : ending ∈ clauseFileEndings
      · rw [load_clauseFile hending hclause] at h
        obtain ⟨f, -, hf⟩ := bind_eq_ok_iff.1 h
        exact ⟨f.clauses, hf⟩
      · by_cases hdocument : ending = documentFileEnding
        · rw [load_document (hdocument ▸ hending)] at h
          obtain ⟨cfg, -, hcfg⟩ := bind_eq_ok_iff.1 h
          obtain ⟨-, -, -, clauses, -, hclauses⟩ := configureFrom_eq_ok_iff.1 hcfg
          exact ⟨clauses, hclauses⟩
        · have hcontains : clauseFileEndings.contains ending = false :=
            Bool.eq_false_iff.2 (mt List.contains_iff_mem.1 hclause)
          rw [load, hending] at h
          simp only [hcontains, hdocument, Bool.false_eq_true, if_false] at h
          cases h

/-- A loaded model has counters of the width it was loaded with. -/
theorem width_of_load (h : load width look path = .ok m) : m.width = width := by
  obtain ⟨clauses, hclauses⟩ := exists_clauses_of_load h
  obtain ⟨e, -, -, rfl⟩ := configure_eq_ok_iff.1 hclauses
  rfl

end Model

/-! ### Files that hold a text -/

theorem fromUTF8?_toUTF8 (text : String) : String.fromUTF8? text.toUTF8 = some text := by
  rw [String.fromUTF8?, String.toUTF8_eq_toByteArray, dif_pos text.isValidUTF8]
  rfl

variable {look : File.Lookup} {path text : String}

/-- A file with the bytes of a text is read like the text. -/
theorem readConfiguration_text (h : look path = .ok (.file text.toUTF8)) :
    readConfiguration look path = Document.parse text := by
  rw [readConfiguration, h]
  simp only [fromUTF8?_toUTF8]

theorem readFormula_text (h : look path = .ok (.file text.toUTF8)) :
    readFormula look path = Dimacs.parse text := by
  rw [readFormula, h]
  simp only [Dimacs.parseBytes, fromUTF8?_toUTF8]

end WeightedSat
