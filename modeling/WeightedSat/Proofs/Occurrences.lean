import WeightedSat.Proofs.Configured
import WeightedSat.Proofs.Extremes

/-!
**The tables list every occurrence, and nothing else.**

The clauses that hold no literal beside its negation are numbered from one in their order.  The
tables of an encoding are then read off them: the weight of each number, for every variable the
numbers of the clauses in which it occurs, with the polarity it has there, in ascending order, and
the extremes of weight and width.  A clause that repeats a literal is listed once under it, and none
is listed with both polarities.

Main definitions:

* `WeightedSat.Encoding.ListsOccurrences` — the occurrences of one variable;
* `WeightedSat.Encoding.Lists` — **what the tables hold**, in terms of clauses and literals.

Main results:

* `WeightedSat.pairwise_occurrencesFrom` — occurrences come in the order of the clauses;
* `WeightedSat.mem_occurrencesFrom_iff` — **there is an occurrence for each literal**;
* `WeightedSat.Encoding.lists_of_build` — **the tables of an encoding are the occurrence structure
  of its clauses**.
-/

set_option relaxedAutoImplicit false
set_option autoImplicit false

namespace WeightedSat

/-! ### The occurrences of a variable -/

theorem le_clause_of_mem_occurrencesFrom {first : Nat} {clauses : List Clause} {name : Nat}
    {o : Occurrence} (h : o ∈ occurrencesFrom first clauses name) : first ≤ o.clause := by
  obtain ⟨k, -, hnumber, -, -⟩ := clause_of_mem_occurrencesFrom h
  omega

/-- **Occurrences come in the order of the clauses**, no clause twice. -/
theorem pairwise_occurrencesFrom (first : Nat) (clauses : List Clause) (name : Nat) :
    (occurrencesFrom first clauses name).Pairwise fun a b => a.clause < b.clause := by
  induction clauses generalizing first with
  | nil => exact .nil
  | cons c cs ih =>
      rw [occurrencesFrom_cons]
      cases c.polarities[name]? with
      | none => exact ih (first + 1)
      | some positive =>
          refine List.pairwise_cons.2 ⟨?_, ih (first + 1)⟩
          intro o ho
          exact le_clause_of_mem_occurrencesFrom ho

/-- **There is an occurrence for each literal** of clauses that are not always true. -/
theorem mem_occurrencesFrom_iff {first k : Nat} {clauses : List Clause} {name : Nat} {c : Clause}
    {positive : Bool} (hk : clauses[k]? = some c) (hc : c.isTautology = false) :
    ⟨first + k, positive⟩ ∈ occurrencesFrom first clauses name ↔
      ⟨name, positive⟩ ∈ c.literals := by
  rw [← Clause.polarities_eq_some_iff hc]
  refine ⟨fun h => ?_, mem_occurrencesFrom hk⟩
  obtain ⟨j, d, hnumber, hj, hpolarity⟩ := clause_of_mem_occurrencesFrom h
  obtain rfl : k = j := Nat.add_left_cancel hnumber
  rw [hk] at hj
  obtain rfl := Option.some_inj.1 hj
  exact hpolarity

theorem occurrencesFrom_ne_nil {first : Nat} {clauses : List Clause} {name : Nat}
    (h : name ∈ distinctNames clauses) : occurrencesFrom first clauses name ≠ [] := by
  obtain ⟨c, hc, hname⟩ := mem_distinctNames.1 h
  obtain ⟨k, hk⟩ := List.mem_iff_getElem?.1 hc
  obtain ⟨positive, hpositive⟩ := Clause.exists_polarity hname
  exact List.ne_nil_of_mem (mem_occurrencesFrom hk hpositive)

namespace Encoding

/-! ### What the tables hold -/

/-- **The list of the occurrences of a name** in clauses that are numbered from one. -/
structure ListsOccurrences (active : List Clause) (name : Nat) (os : List Occurrence) : Prop where
  /-- A clause is listed, with a polarity, exactly when it holds the literal of that polarity. -/
  mem_iff : ∀ k c positive, active[k]? = some c →
    (⟨k + 1, positive⟩ ∈ os ↔ ⟨name, positive⟩ ∈ c.literals)
  /-- Nothing else is listed. -/
  number_bounds : ∀ o ∈ os, 1 ≤ o.clause ∧ o.clause ≤ active.length
  ne_nil : os ≠ []
  /-- The numbers ascend, so no clause is listed twice. -/
  ascending : os.Pairwise fun a b => a.clause < b.clause

/-- **What the tables hold**, in terms of the clauses that are numbered. -/
structure Lists (active : List Clause) (e : Encoding) : Prop where
  size_weights : e.weights.size = active.length + 1
  /-- Weights are found by number. -/
  weight_eq : ∀ k c, active[k]? = some c → e.weights[k + 1]? = some c.weight
  size_names : e.names.size = e.affected.size
  /-- Every variable has the list of its occurrences. -/
  affected : ∀ (i name : Nat) (os : List Occurrence), e.names[i]? = some name →
    e.affected[i]? = some os → ListsOccurrences active name os
  maxWidth_nil : active = [] → e.maxWidth = 0
  /-- The width is the greatest number of distinct variables. -/
  maxWidth_greatest : active ≠ [] →
    IsGreatest {n | ∃ c ∈ active, c.names.toFinset.card = n} e.maxWidth
  maxWeight_nil : active = [] → e.maxWeight = 0.0
  /-- The greatest weight is a weight that no other exceeds. -/
  maxWeight_greatest : active ≠ [] →
    (∃ c ∈ active, c.weight = e.maxWeight) ∧ ∀ c ∈ active, c.weight ≤ e.maxWeight

variable {active clauses : List Clause} {freeNames : List Nat}

theorem listsOccurrences (hactive : ∀ c ∈ active, c.isTautology = false) {name : Nat}
    (hname : name ∈ distinctNames active) :
    ListsOccurrences active name (occurrencesFrom 1 active name) where
  mem_iff k c positive hk := by
    rw [Nat.add_comm k 1]
    exact mem_occurrencesFrom_iff hk (hactive c (List.mem_of_getElem? hk))
  number_bounds o ho := by
    obtain ⟨k, c, hnumber, hk, -⟩ := clause_of_mem_occurrencesFrom ho
    have hlt := (List.getElem?_eq_some_iff.1 hk).1
    omega
  ne_nil := occurrencesFrom_ne_nil hname
  ascending := pairwise_occurrencesFrom 1 active name

/-- **The recorded width** is that of the widest clause. -/
theorem maxWidth_isGreatest (hne : active ≠ []) :
    IsGreatest {n | ∃ c ∈ active, c.names.toFinset.card = n}
      (ofActive active freeNames).maxWidth := by
  have hmem : (ofActive active freeNames).maxWidth ∈ active.map (·.width) := by
    obtain ⟨c, cs, rfl⟩ := List.exists_cons_of_ne_nil hne
    change ((c :: cs).map (·.width)).foldl max 0 ∈ _
    rw [List.map_cons, List.foldl_cons, Nat.zero_max]
    exact Weight.foldl_mem_cons max_choice _ _
  obtain ⟨c, hc, hwidth⟩ := List.mem_map.1 hmem
  refine ⟨⟨c, hc, by rw [← Clause.width_eq_card, hwidth]⟩, ?_⟩
  rintro n ⟨d, hd, rfl⟩
  rw [← Clause.width_eq_card]
  exact maxWidth_le_iff.1 le_rfl d hd

/-- **The tables of an encoding are the occurrence structure of its clauses**: of those that hold no
literal beside its negation, in their order. -/
theorem lists_of_build {e : Encoding} (h : build clauses = .ok e) :
    Lists (clauses.filter fun c => ∀ l ∈ c.literals, l.negate ∉ c.literals) e := by
  rw [← activeClauses_eq]
  have htaut : ∀ c ∈ activeClauses clauses, c.isTautology = false :=
    fun c hc => (mem_activeClauses.1 hc).2
  have hfinite : ∀ c ∈ activeClauses clauses, c.weight.isFinite = true :=
    fun c hc => (admitted_of_build h (mem_activeClauses.1 hc).1).2.1.1
  obtain ⟨-, -, rfl⟩ := build_eq_ok_iff.1 h
  exact {
    size_weights := by simp
    weight_eq := by
      intro k c hk
      simp [hk]
    size_names := by simp [affected_ofActive]
    affected := by
      intro i name os hname hos
      rw [names_ofActive, List.getElem?_toArray] at hname
      rw [affected_ofActive, List.getElem?_toArray, List.getElem?_map, hname, Option.map_some,
        Option.some_inj] at hos
      rw [← hos]
      exact listsOccurrences htaut (List.mem_of_getElem? hname)
    maxWidth_nil := by
      intro hnil
      rw [hnil]
      rfl
    maxWidth_greatest := maxWidth_isGreatest
    maxWeight_nil := by
      intro hnil
      rw [hnil]
      rfl
    maxWeight_greatest := by
      intro hne
      obtain ⟨c, hc, hweight, hle⟩ := exists_greatest hne hfinite
      exact ⟨⟨c, hc, hweight⟩, fun d hd => (hle d hd).trans_eq hweight⟩ }

/-- Of three clauses the second is left out, and the repeated literal of the third is listed once.
-/
theorem lists_of_build_sample :
    ∃ e, build Model.sampleClauses = .ok e ∧
      Lists [⟨1.0, [⟨1, true⟩, ⟨2, false⟩]⟩, ⟨3.0, [⟨1, false⟩, ⟨1, false⟩, ⟨3, true⟩]⟩] e ∧
      e.affected[0]? = some [⟨1, true⟩, ⟨2, false⟩] := by
  obtain ⟨e, he⟩ : ∃ e, build Model.sampleClauses = .ok e := ⟨_, rfl⟩
  refine ⟨e, he, lists_of_build he, ?_⟩
  cases he
  rfl

end Encoding

end WeightedSat
