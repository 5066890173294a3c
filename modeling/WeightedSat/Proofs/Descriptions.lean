import WeightedSat.Proofs.Failures
import WeightedSat.Proofs.Terms

/-!
**Clauses described and read back.**

Any clauses can be put to the test of being described by a configuration: clauses without literals,
with a name several times, with the name zero or with names beyond thirty-two bits.  Describing them
refuses what is no signed number, and reading the description refuses what is not in strict form.
Between them the two refuse exactly the clauses that are not strict, and change none of the others.

Main definitions:

* `WeightedSat.Clause.IsStrict` — **the strict form of a clause**, in terms of its names;
* `WeightedSat.Term.describing` — the term that describes a clause.

Main results:

* `WeightedSat.Clause.isStrict_iff` — the strict form is what is checked;
* `WeightedSat.Configuration.ofClauses_eq_ok_iff` — the clauses that can be described;
* `WeightedSat.Configuration.clauses_describing_eq_ok_iff` — what is read of a description;
* `WeightedSat.Configuration.failsOnly_ofClauses`, `WeightedSat.Configuration.failsOnly_clauses` —
  whatever is refused is refused for its value;
* `WeightedSat.Configuration.described_and_read_back` — **clauses are read back from their
  description exactly when they are strict**, and refused otherwise.
-/

set_option relaxedAutoImplicit false
set_option autoImplicit false

namespace WeightedSat

/-- **The strict form of a clause**: it has a literal, and names that have literals of both
polarities, each once. -/
structure Clause.IsStrict (c : Clause) : Prop where
  ne_nil : c.literals ≠ []
  bounds : ∀ name ∈ c.names, 1 ≤ name ∧ name ≤ 2 ^ 31 - 1
  distinct : c.names.Nodup

/-- The strict form is what is checked. -/
theorem Clause.isStrict_iff {c : Clause} : c.IsStrict ↔ c.checkNames = .ok () := by
  have hmax : maxName = 2 ^ 31 - 1 := by decide
  have hbounds : (∀ name ∈ c.names, 1 ≤ name ∧ name ≤ 2 ^ 31 - 1) ↔
      ∀ l ∈ c.literals, admitsName l.name = true := by
    simp only [names, List.forall_mem_map, admitsName, hmax, Bool.and_eq_true, decide_eq_true_iff,
      Nat.lt_iff_add_one_le, Nat.zero_add]
  rw [checkNames_eq_ok_iff, ← hbounds]
  exact ⟨fun h => ⟨h.ne_nil, h.distinct, h.bounds⟩, fun h => ⟨h.1, h.2.2, h.2.1⟩⟩

/-- The literals of a strict clause are signed numbers of thirty-two bits. -/
theorem Clause.IsStrict.fitsSigned {c : Clause} (h : c.IsStrict) :
    ∀ l ∈ c.literals, FitsSigned 32 l.toSigned := by
  intro l hl
  have hbounds := h.bounds l.name (List.mem_map_of_mem hl)
  rw [fitsSigned_thirtyTwo, Literal.toSigned]
  split <;> omega

/-! ### The term of a clause -/

/-- The term that describes a clause. -/
def Term.describing (c : Clause) : Term :=
  ⟨c.weight, c.literals.map Literal.toSigned⟩

theorem Literal.natAbs_toSigned (l : Literal) : l.toSigned.natAbs = l.name := by
  rw [toSigned]
  split <;> simp

theorem Literal.toId_eq_ok_iff {l : Literal} {x : Int} :
    l.toId = .ok x ↔ FitsSigned 32 l.toSigned ∧ x = l.toSigned := by
  rw [toId]
  split
  · rename_i hfits
    simp [hfits, eq_comm]
  · rename_i hfits
    simp [hfits]

namespace Term

theorem natAbs_ids_describing (c : Clause) : (describing c).ids.map Int.natAbs = c.names := by
  rw [describing, List.map_map, Clause.names]
  exact List.map_congr_left fun l _ => l.natAbs_toSigned

/-- A clause is strict exactly when its term is. -/
theorem isStrict_describing_iff {c : Clause} : (describing c).IsStrict ↔ c.IsStrict := by
  have hids : ∀ x : Int, x ≠ 0 ∧ -(2 ^ 31 - 1) ≤ x ∧ x ≤ 2 ^ 31 - 1 ↔
      1 ≤ x.natAbs ∧ x.natAbs ≤ 2 ^ 31 - 1 := by
    intro x
    omega
  have hbounds : (∀ x ∈ (describing c).ids, x ≠ 0 ∧ -(2 ^ 31 - 1) ≤ x ∧ x ≤ 2 ^ 31 - 1) ↔
      ∀ name ∈ c.names, 1 ≤ name ∧ name ≤ 2 ^ 31 - 1 := by
    simp only [← natAbs_ids_describing c, List.forall_mem_map, hids]
  constructor
  · intro h
    refine ⟨?_, hbounds.1 fun x hx => ⟨h.ne_zero x hx, h.bounds x hx⟩, ?_⟩
    · exact mt List.map_eq_nil_iff.2 h.ne_nil
    · rw [← natAbs_ids_describing]
      exact h.distinct
  · intro h
    have hall := hbounds.2 h.bounds
    refine ⟨?_, fun x hx => (hall x hx).1, fun x hx => (hall x hx).2, ?_⟩
    · exact mt List.map_eq_nil_iff.1 h.ne_nil
    · rw [natAbs_ids_describing]
      exact h.distinct

/-- The term of a strict clause describes it. -/
theorem clause_describing {c : Clause} (h : c.IsStrict) : (describing c).clause = c := by
  obtain ⟨weight, literals⟩ := c
  have hsame : ∀ l ∈ literals, (⟨l.toSigned.natAbs, 0 < l.toSigned⟩ : Literal) = l := by
    intro l hl
    have hpos := (h.bounds l.name (List.mem_map_of_mem hl)).1
    have hsigned := Literal.ofSigned?_toSigned (l := l) (by omega)
    exact (Literal.ofSigned?_eq_some_iff.1 hsigned).2.symm
  rw [clause, describing, List.map_map]
  exact congrArg (Clause.mk weight) ((List.map_congr_left hsame).trans (List.map_id' literals))

/-- The term of a clause, where all its literals are signed numbers. -/
theorem ofClause_eq_ok_iff {c : Clause} {t : Term} :
    ofClause c = .ok t ↔ (∀ l ∈ c.literals, FitsSigned 32 l.toSigned) ∧ t = describing c := by
  have hids : ∀ ids, c.literals.mapM Literal.toId = .ok ids ↔
      (∀ l ∈ c.literals, FitsSigned 32 l.toSigned) ∧ ids = c.literals.map Literal.toSigned := by
    intro ids
    rw [mapM_eq_ok_iff]
    simp only [Literal.toId_eq_ok_iff]
    rw [List.forall₂_and_left, eq_comm, ← List.forall₂_eq_eq_eq, List.forall₂_map_left_iff]
    simp only [eq_comm]
  rw [ofClause, bind_eq_ok_iff]
  constructor
  · rintro ⟨ids, hread, h⟩
    cases h
    obtain ⟨hfits, rfl⟩ := (hids ids).1 hread
    exact ⟨hfits, rfl⟩
  · rintro ⟨hfits, rfl⟩
    exact ⟨_, (hids _).2 ⟨hfits, rfl⟩, rfl⟩

end Term

/-! ### What is refused -/

theorem Literal.failsOnly_toId (l : Literal) : FailsOnly (·.kind = .value) l.toId := by
  rw [toId]
  split
  · exact failsOnly_ok _
  · exact failsOnly_error rfl

theorem Clause.failsOnly_checkLiterals (seen : Std.TreeSet Literal) (ls : List Literal) :
    FailsOnly (·.kind = .value) (checkLiterals seen ls) := by
  induction ls generalizing seen with
  | nil => exact failsOnly_ok ()
  | cons l ls ih =>
      rw [checkLiterals]
      split_ifs
      · exact failsOnly_error rfl
      · exact failsOnly_error rfl
      · exact failsOnly_error rfl
      · exact ih (seen.insert l)

theorem Clause.failsOnly_checkNames (c : Clause) : FailsOnly (·.kind = .value) c.checkNames := by
  rw [checkNames]
  split
  · exact failsOnly_error rfl
  · exact failsOnly_checkLiterals ∅ c.literals

theorem Clause.failsOnly_ofSigned (weight : Float) (ids : List Int) :
    FailsOnly (·.kind = .value) (ofSigned weight ids) := by
  refine (FailsOnly.mapM fun x _ => ?_).bind fun _ _ => failsOnly_ok _
  split
  · exact failsOnly_ok _
  · exact failsOnly_error rfl

namespace Configuration

/-- Clauses that cannot be described are refused for their value. -/
theorem failsOnly_ofClauses (cs : List Clause) :
    FailsOnly (·.kind = .value) (ofClauses cs) := by
  refine (FailsOnly.mapM fun c _ => ?_).bind fun _ _ => failsOnly_ok _
  exact (FailsOnly.mapM fun l _ => l.failsOnly_toId).bind fun _ _ => failsOnly_ok _

/-- Terms that describe no clause are refused for their value. -/
theorem failsOnly_clauses (cfg : Configuration) : FailsOnly (·.kind = .value) cfg.clauses := by
  refine FailsOnly.mapM fun t _ => ?_
  refine (Clause.failsOnly_ofSigned t.weight t.ids).bind fun c _ => ?_
  exact c.failsOnly_checkNames.bind fun _ _ => failsOnly_ok c

/-! ### Describing and reading back -/

/-- Clauses are described as their terms, where all their literals are signed numbers. -/
theorem ofClauses_eq_ok_iff {cs : List Clause} {cfg : Configuration} :
    ofClauses cs = .ok cfg ↔
      (∀ c ∈ cs, ∀ l ∈ c.literals, FitsSigned 32 l.toSigned) ∧
        cfg = ⟨Model.identifier, Model.version, cs.map Term.describing⟩ := by
  have hterms : ∀ ts, cs.mapM Term.ofClause = .ok ts ↔
      (∀ c ∈ cs, ∀ l ∈ c.literals, FitsSigned 32 l.toSigned) ∧ ts = cs.map Term.describing := by
    intro ts
    rw [mapM_eq_ok_iff]
    simp only [Term.ofClause_eq_ok_iff]
    rw [List.forall₂_and_left, eq_comm, ← List.forall₂_eq_eq_eq, List.forall₂_map_left_iff]
    simp only [eq_comm]
  rw [ofClauses, bind_eq_ok_iff]
  constructor
  · rintro ⟨ts, hread, h⟩
    cases h
    obtain ⟨hfits, rfl⟩ := (hterms ts).1 hread
    exact ⟨hfits, rfl⟩
  · rintro ⟨hfits, rfl⟩
    exact ⟨_, (hterms _).2 ⟨hfits, rfl⟩, rfl⟩

/-- **What is read of a description**: the clauses themselves, and only where they are strict. -/
theorem clauses_describing_eq_ok_iff {kind version : String} {cs ds : List Clause} :
    Configuration.clauses ⟨kind, version, cs.map Term.describing⟩ = .ok ds ↔
      (∀ c ∈ cs, c.IsStrict) ∧ ds = cs := by
  rw [clauses_eq_ok_iff, List.forall_mem_map, List.map_map]
  simp only [Term.isStrict_describing_iff]
  refine and_congr_right fun hstrict => ?_
  have hsame := List.map_congr_left fun c hc => Term.clause_describing (hstrict c hc)
  rw [List.map_id'] at hsame
  rw [Function.comp_def, hsame]

/-- What is described and read back: the same clauses, and only where they are strict. -/
theorem exists_ofClauses_clauses_iff {cs ds : List Clause} :
    (∃ cfg, ofClauses cs = .ok cfg ∧ cfg.clauses = .ok ds) ↔ (∀ c ∈ cs, c.IsStrict) ∧ ds = cs := by
  constructor
  · rintro ⟨cfg, hdescribed, hclauses⟩
    obtain ⟨-, rfl⟩ := ofClauses_eq_ok_iff.1 hdescribed
    exact clauses_describing_eq_ok_iff.1 hclauses
  · rintro ⟨hstrict, rfl⟩
    exact ⟨_, ofClauses_eq_ok_iff.2 ⟨fun c hc => (hstrict c hc).fitsSigned, rfl⟩,
      clauses_describing_eq_ok_iff.2 ⟨hstrict, rfl⟩⟩

/-- **Clauses are read back from their description exactly when they are strict**, with their
weights, and their literals in order.  All others are refused for their value, by the description or
by what reads it; no description is read as other clauses. -/
theorem described_and_read_back (cs : List Clause) :
    ((∃ cfg, ofClauses cs = .ok cfg ∧ cfg.clauses = .ok cs) ↔ ∀ c ∈ cs, c.IsStrict) ∧
      ((∀ c ∈ cs, c.IsStrict) ∨
        (∃ e, ofClauses cs = .error e ∧ e.kind = .value) ∨
          ∃ cfg e, ofClauses cs = .ok cfg ∧ cfg.clauses = .error e ∧ e.kind = .value) := by
  refine ⟨exists_ofClauses_clauses_iff.trans (and_iff_left rfl), ?_⟩
  cases hdescribed : ofClauses cs with
  | error e => exact Or.inr (Or.inl ⟨e, rfl, failsOnly_ofClauses cs e hdescribed⟩)
  | ok cfg =>
      cases hclauses : cfg.clauses with
      | error e => exact Or.inr (Or.inr ⟨cfg, e, rfl, hclauses, failsOnly_clauses cfg e hclauses⟩)
      | ok ds =>
          exact Or.inl (exists_ofClauses_clauses_iff.1 ⟨cfg, hdescribed, hclauses⟩).1

/-- The negative literal of `2 ^ 31` is a signed number of thirty-two bits, and refused only when
the description is read. -/
example : ofClauses [⟨1.0, [⟨2 ^ 31, false⟩]⟩] =
      .ok ⟨"maxsat", "1.0", [⟨1.0, [-2 ^ 31]⟩]⟩ ∧
    Configuration.clauses ⟨"maxsat", "1.0", [⟨1.0, [-2 ^ 31]⟩]⟩ =
      .error (.unnegatableName (2 ^ 31)) :=
  ⟨rfl, rfl⟩

end Configuration

end WeightedSat
