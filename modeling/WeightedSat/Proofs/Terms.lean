import Mathlib.Data.List.Forall2
import WeightedSat.Document.Configuration
import WeightedSat.Proofs.Encoding
import WeightedSat.Proofs.Results

/-!
**Terms and the clauses they describe.**

A term gives a weight and signed literals without any restriction: it may have no literal, a zero
among them, or one name several times.  Only some terms describe a clause, and this module says
which.

Main definitions:

* `WeightedSat.Term.IsStrict`, `WeightedSat.Term.clause` — **the terms that describe a clause**, and
  the clause;
* `WeightedSat.WholeTerm` — a term whose weight is a whole number;
* `WeightedSat.WholeTerm.Describes` — **the clause that a term describes**.

Main results:

* `WeightedSat.Clause.checkNames_eq_ok_iff` — the strict form of a clause;
* `WeightedSat.Term.toClause_eq_ok_iff`, `WeightedSat.Configuration.clauses_eq_ok_iff` — **terms
  become clauses exactly when they are strict**;
* `WeightedSat.WholeTerm.toClause_eq_ok_iff` — the same of whole terms;
* `WeightedSat.Encoding.length_le_of_build` — clauses in strict form are all numbered.
-/

set_option relaxedAutoImplicit false
set_option autoImplicit false

namespace WeightedSat

/-! ### The strict form of a clause -/

namespace Clause

/-- A literal and those after it are new to a set exactly when it is, and they are new to the set
with it and have other names. -/
theorem forall_notMem_insert_iff {seen : Std.TreeSet Literal} {l : Literal} {ls : List Literal} :
    (∀ k ∈ ls, k ∉ seen.insert l ∧ k.negate ∉ seen.insert l) ↔
      l.name ∉ ls.map (·.name) ∧ ∀ k ∈ ls, k ∉ seen ∧ k.negate ∉ seen := by
  rw [Literal.name_notMem_iff]
  constructor
  · intro h
    refine ⟨⟨?_, ?_⟩, ?_⟩
    · intro hl
      exact (h l hl).1 (Literal.mem_insert_iff.2 (Or.inl rfl))
    · intro hl
      exact (h l.negate hl).2 (Literal.mem_insert_iff.2 (Or.inl (Literal.negate_negate l)))
    · intro k hk
      obtain ⟨hnew, hneg⟩ := h k hk
      exact ⟨fun hs => hnew (Literal.mem_insert_iff.2 (Or.inr hs)),
        fun hs => hneg (Literal.mem_insert_iff.2 (Or.inr hs))⟩
  · rintro ⟨⟨hl, hl'⟩, h⟩ k hk
    refine ⟨fun hs => ?_, fun hs => ?_⟩
    · rcases Literal.mem_insert_iff.1 hs with rfl | hs
      · exact hl hk
      · exact (h k hk).1 hs
    · rcases Literal.mem_insert_iff.1 hs with rfl | hs
      · rw [Literal.negate_negate] at hl'
        exact hl' hk
      · exact (h k hk).2 hs

/-- Literals pass exactly when their names are admitted and new. -/
theorem checkLiterals_eq_ok_iff {seen : Std.TreeSet Literal} {ls : List Literal} :
    checkLiterals seen ls = .ok () ↔
      (∀ l ∈ ls, admitsName l.name = true) ∧ (ls.map (·.name)).Nodup ∧
        ∀ l ∈ ls, l ∉ seen ∧ l.negate ∉ seen := by
  induction ls generalizing seen with
  | nil => simp [checkLiterals]
  | cons l ls ih =>
      rw [checkLiterals, List.map_cons, List.nodup_cons, List.forall_mem_cons,
        List.forall_mem_cons]
      by_cases hname : admitsName l.name = true
      · by_cases hseen : l ∈ seen
        · have hcontains : seen.contains l = true := hseen
          simp only [hname, hcontains, Bool.not_true, Bool.false_eq_true, if_false, if_true]
          exact ⟨nofun, fun h => absurd hseen h.2.2.1.1⟩
        · have hcontains : seen.contains l = false := Bool.eq_false_iff.2 hseen
          by_cases hneg : l.negate ∈ seen
          · have hcontains' : seen.contains l.negate = true := hneg
            simp only [hname, hcontains, hcontains', Bool.not_true, Bool.false_eq_true, if_false,
              if_true]
            exact ⟨nofun, fun h => absurd hneg h.2.2.1.2⟩
          · have hcontains' : seen.contains l.negate = false := Bool.eq_false_iff.2 hneg
            simp only [hname, hcontains, hcontains', Bool.not_true, Bool.false_eq_true, if_false]
            rw [ih, forall_notMem_insert_iff]
            tauto
      · simp [hname]

/-- **The strict form of a clause**: it has a literal, and admitted names, each once. -/
theorem checkNames_eq_ok_iff {c : Clause} :
    c.checkNames = .ok () ↔
      c.literals ≠ [] ∧ c.names.Nodup ∧ ∀ l ∈ c.literals, admitsName l.name = true := by
  rw [checkNames]
  split
  · rename_i hempty
    simp [List.isEmpty_iff.1 hempty]
  · rename_i hempty
    rw [checkLiterals_eq_ok_iff, names]
    simp [mt List.isEmpty_iff.2 hempty, and_comm]

/-- A clause with signed literals, none of which is zero. -/
theorem ofSigned_eq_ok_iff {weight : Float} {ids : List Int} {c : Clause} :
    ofSigned weight ids = .ok c ↔
      c.weight = weight ∧
        List.Forall₂ (fun x l => Literal.ofSigned? x = some l) ids c.literals := by
  rw [ofSigned, bind_eq_ok_iff]
  simp only [mapM_eq_ok_iff]
  constructor
  · rintro ⟨literals, hliterals, h⟩
    cases h
    refine ⟨rfl, hliterals.imp ?_⟩
    intro x l hl
    split at hl
    · rename_i hx
      cases hl
      exact hx
    · cases hl
  · rintro ⟨rfl, hliterals⟩
    refine ⟨c.literals, hliterals.imp ?_, rfl⟩
    intro x l hx
    rw [hx]

/-- A clause in which no name stands twice is not always true. -/
theorem isTautology_eq_false {c : Clause} (h : c.names.Nodup) : c.isTautology = false := by
  rw [Bool.eq_false_iff]
  intro htautology
  obtain ⟨l, hl, hneg⟩ := (isTautology_eq_true_iff c).1 htautology
  have heq : l = l.negate := List.inj_on_of_nodup_map h hl hneg (Literal.name_negate l).symm
  have hpositive : l.positive = !l.positive := congrArg Literal.positive heq
  exact Bool.not_ne_self l.positive hpositive.symm

end Clause

/-- Clauses that name no variable twice are all active. -/
theorem Encoding.activeClauses_eq_self {clauses : List Clause}
    (hdistinct : ∀ c ∈ clauses, c.names.Nodup) : activeClauses clauses = clauses := by
  refine List.filter_eq_self.2 ?_
  intro c hc
  rw [Clause.isTautology_eq_false (hdistinct c hc), Bool.not_false]

/-- **Clauses in strict form are all numbered**, so that only so many are encoded. -/
theorem Encoding.length_le_of_build {clauses : List Clause} {e : Encoding}
    (h : build clauses = .ok e) (hdistinct : ∀ c ∈ clauses, c.names.Nodup) :
    clauses.length ≤ maxClauses := by
  obtain ⟨-, hlength, -⟩ := build_eq_ok_iff.1 h
  rwa [activeClauses_eq_self hdistinct] at hlength

/-! ### Terms -/

namespace Term

/-- The terms that describe a clause: they have a literal, and each name once, which has literals of
both polarities. -/
structure IsStrict (t : Term) : Prop where
  ne_nil : t.ids ≠ []
  ne_zero : ∀ x ∈ t.ids, x ≠ 0
  bounds : ∀ x ∈ t.ids, -(2 ^ 31 - 1) ≤ x ∧ x ≤ 2 ^ 31 - 1
  distinct : (t.ids.map Int.natAbs).Nodup

/-- The clause that a strict term describes. -/
def clause (t : Term) : Clause :=
  ⟨t.weight, t.ids.map fun x => ⟨x.natAbs, 0 < x⟩⟩

theorem names_clause (t : Term) : t.clause.names = t.ids.map Int.natAbs := by
  rw [Clause.names, clause, List.map_map]
  rfl

theorem admitsName_natAbs_iff {x : Int} :
    Clause.admitsName x.natAbs = true ↔ x ≠ 0 ∧ -(2 ^ 31 - 1) ≤ x ∧ x ≤ 2 ^ 31 - 1 := by
  have hmax : maxName = 2147483647 := by decide
  rw [Clause.admitsName, Bool.and_eq_true, decide_eq_true_iff, decide_eq_true_iff, hmax]
  omega

/-- The literals with given signed forms, none of which is zero. -/
theorem forall₂_ofSigned?_iff {ids : List Int} {literals : List Literal} :
    List.Forall₂ (fun x l => Literal.ofSigned? x = some l) ids literals ↔
      (∀ x ∈ ids, x ≠ 0) ∧ literals = ids.map fun x => ⟨x.natAbs, 0 < x⟩ := by
  induction ids generalizing literals with
  | nil => cases literals <;> simp
  | cons x ids ih =>
      rw [List.forall₂_cons_left_iff, List.forall_mem_cons, List.map_cons]
      constructor
      · rintro ⟨l, ls, hl, hls, rfl⟩
        obtain ⟨hids, rfl⟩ := ih.1 hls
        obtain ⟨hx, rfl⟩ := Literal.ofSigned?_eq_some_iff.1 hl
        exact ⟨⟨hx, hids⟩, rfl⟩
      · rintro ⟨⟨hx, hids⟩, rfl⟩
        exact ⟨_, _, Literal.ofSigned?_eq_some_iff.2 ⟨hx, rfl⟩, ih.2 ⟨hids, rfl⟩, rfl⟩

/-- **A term becomes a clause exactly when it is strict.** -/
theorem toClause_eq_ok_iff {t : Term} {c : Clause} :
    t.toClause = .ok c ↔ t.IsStrict ∧ c = t.clause := by
  have hstrict : t.clause.checkNames = .ok () ↔ t.ids ≠ [] ∧ (t.ids.map Int.natAbs).Nodup ∧
      ∀ x ∈ t.ids, x ≠ 0 ∧ -(2 ^ 31 - 1) ≤ x ∧ x ≤ 2 ^ 31 - 1 := by
    rw [Clause.checkNames_eq_ok_iff, names_clause]
    simp only [clause, ne_eq, List.map_eq_nil_iff, List.forall_mem_map, admitsName_natAbs_iff]
  rw [toClause, bind_eq_ok_iff]
  constructor
  · rintro ⟨d, hsigned, h⟩
    obtain ⟨⟨⟩, hnames, h⟩ := bind_eq_ok_iff.1 h
    cases h
    obtain ⟨hweight, hliterals⟩ := Clause.ofSigned_eq_ok_iff.1 hsigned
    obtain ⟨hzero, hliterals⟩ := forall₂_ofSigned?_iff.1 hliterals
    obtain rfl : c = t.clause := by rw [clause, ← hweight, ← hliterals]
    obtain ⟨hne, hdistinct, hbounds⟩ := hstrict.1 hnames
    exact ⟨⟨hne, hzero, fun x hx => (hbounds x hx).2, hdistinct⟩, rfl⟩
  · rintro ⟨h, rfl⟩
    refine ⟨t.clause, Clause.ofSigned_eq_ok_iff.2 ⟨rfl, ?_⟩, bind_eq_ok_iff.2 ⟨(), ?_, rfl⟩⟩
    · exact forall₂_ofSigned?_iff.2 ⟨h.ne_zero, rfl⟩
    · exact hstrict.2 ⟨h.ne_nil, h.distinct, fun x hx => ⟨h.ne_zero x hx, h.bounds x hx⟩⟩

end Term

/-- **A configuration describes clauses exactly when its terms are strict.** -/
theorem Configuration.clauses_eq_ok_iff {cfg : Configuration} {clauses : List Clause} :
    cfg.clauses = .ok clauses ↔
      (∀ t ∈ cfg.terms, t.IsStrict) ∧ clauses = cfg.terms.map Term.clause := by
  rw [Configuration.clauses, mapM_eq_ok_iff]
  simp only [Term.toClause_eq_ok_iff]
  induction cfg.terms generalizing clauses with
  | nil => cases clauses <;> simp
  | cons t ts ih =>
      rw [List.forall₂_cons_left_iff, List.forall_mem_cons, List.map_cons]
      constructor
      · rintro ⟨c, cs, ⟨ht, rfl⟩, hcs, rfl⟩
        obtain ⟨hts, rfl⟩ := ih.1 hcs
        exact ⟨⟨ht, hts⟩, rfl⟩
      · rintro ⟨⟨ht, hts⟩, rfl⟩
        exact ⟨_, _, ⟨ht, rfl⟩, ih.2 ⟨hts, rfl⟩, rfl⟩

/-! ### Whole terms -/

/-- A term whose weight is a whole number. -/
structure WholeTerm where
  /-- The weight. -/
  weight : Nat
  /-- The signed literals. -/
  ids : List Int

namespace WholeTerm

/-- The weight is a positive word of sixty-four bits, the literals are signed numbers of
thirty-two. -/
structure Fits (t : WholeTerm) : Prop where
  one_le : 1 ≤ t.weight
  le : t.weight ≤ 2 ^ 64 - 1
  ids : ∀ x ∈ t.ids, FitsSigned 32 x

instance (t : WholeTerm) : Decidable t.Fits :=
  decidable_of_iff (1 ≤ t.weight ∧ t.weight ≤ 2 ^ 64 - 1 ∧ ∀ x ∈ t.ids, FitsSigned 32 x)
    ⟨fun ⟨h₁, h₂, h₃⟩ => ⟨h₁, h₂, h₃⟩, fun h => ⟨h.one_le, h.le, h.ids⟩⟩

/-- The term with the nearest floating-point number as its weight. -/
def toTerm (t : WholeTerm) : Term :=
  ⟨Decimal.toFloat ⟨t.weight, 0⟩, t.ids⟩

/-- **The clause that a term describes.**  Only terms of one or more literals, with no zero among
them and each name once, describe one. -/
structure Describes (t : WholeTerm) (c : Clause) : Prop where
  weight_eq : c.weight = Decimal.toFloat ⟨t.weight, 0⟩
  literals : List.Forall₂ (fun x l => Literal.ofSigned? x = some l) t.ids c.literals
  ne_nil : c.literals ≠ []
  distinct : c.names.Nodup
  admitted : ∀ l ∈ c.literals, Clause.admitsName l.name = true

/-- **A term becomes a clause exactly when it describes one.** -/
theorem toClause_eq_ok_iff {t : WholeTerm} {c : Clause} :
    t.toTerm.toClause = .ok c ↔ t.Describes c := by
  rw [Term.toClause, bind_eq_ok_iff]
  constructor
  · rintro ⟨d, hsigned, h⟩
    obtain ⟨u, hnames, h⟩ := bind_eq_ok_iff.1 h
    cases h
    obtain ⟨hweight, hliterals⟩ := Clause.ofSigned_eq_ok_iff.1 hsigned
    obtain ⟨hne, hdistinct, hadmitted⟩ := Clause.checkNames_eq_ok_iff.1 hnames
    exact ⟨hweight, hliterals, hne, hdistinct, hadmitted⟩
  · intro h
    refine ⟨c, Clause.ofSigned_eq_ok_iff.2 ⟨h.weight_eq, h.literals⟩, ?_⟩
    exact bind_eq_ok_iff.2
      ⟨(), Clause.checkNames_eq_ok_iff.2 ⟨h.ne_nil, h.distinct, h.admitted⟩, rfl⟩

end WholeTerm

end WeightedSat
