import WeightedSat.Model
import WeightedSat.Proofs.Encoding

/-!
**Configured models.**

A model stands for a list of clauses once it has been configured for them, and still does when it
is given counters of another width.  All that local search needs to know of such a model is
collected in one structure, which speaks about the active clauses only: later proofs cite it and
never look at how the tables were built.

Main definitions:

* `WeightedSat.Model.Configured` — how a model comes to stand for a list of clauses;
* `WeightedSat.Model.Encodes` — what its tables then hold, in terms of the active clauses.

Main results:

* `WeightedSat.Model.configure_eq_ok_iff` — when configuring succeeds;
* `WeightedSat.Model.Configured.encodes` — **a configured model encodes its active clauses**.
-/

set_option relaxedAutoImplicit false
set_option autoImplicit false

namespace WeightedSat

namespace Model

/-! ### How models are configured -/

/-- **How a model comes to stand for a list of clauses**: it is configured for them, and may then be
given counters of another width. -/
inductive Configured (clauses : List Clause) : Model → Prop
  /-- By configuring any model. -/
  | configure {before after : Model} (h : before.configure clauses = .ok after) :
      Configured clauses after
  /-- By changing the width of the counters. -/
  | withWidth {before after : Model} {width : CounterWidth} (hbefore : Configured clauses before)
      (h : before.withWidth width = .ok after) : Configured clauses after

/-- What the tables of a configured model hold, in terms of the active clauses. -/
structure Encodes (m : Model) (active : List Clause) : Prop where
  /-- The model is configured. -/
  configured : m.encoding? = some m.encoding
  /-- The variables are the names of the active clauses. -/
  names_eq : m.encoding.names = (distinctNames active).toArray
  /-- The weights are those of the active clauses, from slot one on. -/
  weights_eq : m.encoding.weights = (0.0 :: active.map (·.weight)).toArray
  /-- The occurrences of a variable are found clause by clause. -/
  affected_eq : m.encoding.affected =
    ((distinctNames active).map (occurrencesFrom 1 active)).toArray
  /-- No active clause is always true. -/
  isTautology_eq : ∀ c ∈ active, c.isTautology = false
  /-- The counters can count the variables of every active clause. -/
  width_le : ∀ c ∈ active, c.width ≤ m.width.capacity

theorem ofEncoding_eq_ok_iff {width : CounterWidth} {e : Encoding} {m : Model} :
    ofEncoding width e = .ok m ↔ e.maxWidth ≤ width.capacity ∧ m = ⟨width, some e⟩ := by
  rw [ofEncoding]
  by_cases h : width.capacity < e.maxWidth
  · simp [h]
  · simp [h, Nat.le_of_not_lt h, eq_comm]

/-- **When configuring succeeds**, and what it gives. -/
theorem configure_eq_ok_iff {before m : Model} {clauses : List Clause} :
    before.configure clauses = .ok m ↔
      ∃ e, Encoding.build clauses = .ok e ∧ e.maxWidth ≤ before.width.capacity ∧
        m = ⟨before.width, some e⟩ := by
  rw [configure]
  cases Encoding.build clauses with
  | error err => simp [bind, Except.bind]
  | ok e => simp [bind, Except.bind, ofEncoding_eq_ok_iff]

/-- A configured model holds the encoding of its clauses, and its counters are wide enough. -/
theorem Configured.encoding?_eq {clauses : List Clause} {m : Model} (h : m.Configured clauses) :
    ∃ e, Encoding.build clauses = .ok e ∧ e.maxWidth ≤ m.width.capacity ∧
      m.encoding? = some e := by
  induction h with
  | configure h =>
      obtain ⟨e, hbuild, hwidth, rfl⟩ := configure_eq_ok_iff.1 h
      exact ⟨e, hbuild, hwidth, rfl⟩
  | withWidth _ h ih =>
      obtain ⟨e, hbuild, -, hencoding⟩ := ih
      rw [Model.withWidth, hencoding] at h
      obtain ⟨hwidth, rfl⟩ := ofEncoding_eq_ok_iff.1 h
      exact ⟨e, hbuild, hwidth, rfl⟩

/-- Its tables are built from the active clauses and the free names. -/
theorem Configured.encoding_eq {clauses : List Clause} {m : Model} (h : m.Configured clauses) :
    m.encoding =
      Encoding.ofActive (Encoding.activeClauses clauses) (Encoding.freeNamesOf clauses) := by
  obtain ⟨e, hbuild, -, hencoding⟩ := h.encoding?_eq
  rw [encoding, hencoding, Option.getD_some]
  exact (Encoding.build_eq_ok_iff.1 hbuild).2.2

/-- **The tables of a configured model are those of its active clauses.** -/
theorem Configured.encodes {clauses : List Clause} {m : Model} (h : m.Configured clauses) :
    m.Encodes (Encoding.activeClauses clauses) := by
  obtain ⟨e, -, hwidth, hencoding⟩ := h.encoding?_eq
  have hm := h.encoding_eq
  obtain rfl : m.encoding = e := by rw [encoding, hencoding, Option.getD_some]
  rw [hm] at hwidth
  exact {
    configured := hencoding
    names_eq := by rw [hm, Encoding.names_ofActive]
    weights_eq := by rw [hm, Encoding.weights_ofActive]
    affected_eq := by rw [hm, Encoding.affected_ofActive]
    isTautology_eq := fun c hc => (Encoding.mem_activeClauses.1 hc).2
    width_le := Encoding.maxWidth_le_iff.1 hwidth }

/-! ### Reading the tables -/

namespace Encodes

variable {m : Model} {active : List Clause} (he : m.Encodes active)

include he

theorem clauseCount_eq : m.clauseCount = active.length := by
  simp [clauseCount, Encoding.clauseCount, he.weights_eq]

theorem variableCount_eq : m.variableCount = (distinctNames active).length := by
  simp [variableCount, Encoding.variableCount, he.affected_eq]

theorem getElem?_names (i : Nat) : m.encoding.names[i]? = (distinctNames active)[i]? := by
  rw [he.names_eq, List.getElem?_toArray]

/-- Every variable has a name. -/
theorem exists_name {i : Nat} (hi : i < m.variableCount) :
    ∃ name, m.encoding.names[i]? = some name := by
  rw [he.variableCount_eq] at hi
  exact ⟨_, (he.getElem?_names i).trans (List.getElem?_eq_getElem hi)⟩

theorem affected_eq_ok {i name : Nat} (hi : m.encoding.names[i]? = some name) :
    m.affected i = .ok (occurrencesFrom 1 active name) := by
  rw [he.getElem?_names] at hi
  simp [affected, he.affected_eq, hi]

theorem getElem?_weights {k : Nat} {c : Clause} (hk : active[k]? = some c) :
    m.encoding.weights[k + 1]? = some c.weight := by
  rw [he.weights_eq, List.getElem?_toArray, List.getElem?_cons_succ, List.getElem?_map, hk,
    Option.map_some]

theorem weight_eq_ok {k : Nat} {c : Clause} (hk : active[k]? = some c) :
    m.weight (k + 1) = .ok c.weight := by
  rw [weight, he.getElem?_weights hk]

end Encodes

/-! ### A model to try things on -/

/-- Three clauses: the second is always true, and the third repeats a literal. -/
def sampleClauses : List Clause :=
  [⟨1.0, [⟨1, true⟩, ⟨2, false⟩]⟩, ⟨2.0, [⟨4, true⟩, ⟨4, false⟩]⟩,
    ⟨3.0, [⟨1, false⟩, ⟨1, false⟩, ⟨3, true⟩]⟩]

/-- The model that counts the literals of the three clauses in eight bits. -/
def sampleModel : Model :=
  ⟨.eight, some (.ofActive (Encoding.activeClauses sampleClauses)
    (Encoding.freeNamesOf sampleClauses))⟩

theorem configure_sampleClauses :
    (unconfigured .eight).configure sampleClauses = .ok sampleModel := rfl

theorem sampleModel_configured : sampleModel.Configured sampleClauses :=
  .configure configure_sampleClauses

end Model

end WeightedSat
