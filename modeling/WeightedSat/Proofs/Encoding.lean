import Mathlib.Algebra.BigOperators.Group.Finset.Piecewise
import Mathlib.Data.List.Basic
import WeightedSat.Encoding
import WeightedSat.Proofs.TrueLiterals

/-!
**The tables of local search, in terms of the clauses.**

An encoding is built through maps and groupings.  This module says what stands in its tables in
terms of the active clauses alone: the occurrences of a variable are found by asking every active
clause, in order, for the polarity it records.  The clauses are numbered from one, so no two
occurrences of a variable are in the same clause.

Main definitions:

* `WeightedSat.occurrencesFrom` — the occurrences of a name in clauses numbered from a given
  number on;
* `WeightedSat.falseOccurrences` — the negated occurrences of all variables.

Main results:

* `WeightedSat.Clause.checkAdmitted_eq_ok_iff` — what a clause needs to be encoded;
* `WeightedSat.Encoding.build_eq_ok_iff` — which clauses are encoded, and how;
* `WeightedSat.Encoding.affected_ofActive` — **the occurrences of a variable**, clause by clause;
* `WeightedSat.countP_occurrencesFrom` — how often a variable occurs in one clause: at most once;
* `WeightedSat.countP_falseOccurrences` — how many negated occurrences a clause has.
-/

set_option relaxedAutoImplicit false
set_option autoImplicit false

namespace WeightedSat

/-! ### Names -/

theorem nodup_distinctNames (clauses : List Clause) : (distinctNames clauses).Nodup := by
  refine List.Pairwise.imp ?_ Std.TreeSet.distinct_toList
  intro a b h hab
  exact h (Nat.compare_eq_eq.2 hab)

/-- The names of the active clauses are simulated. -/
theorem names_subset_distinctNames {clauses : List Clause} {c : Clause} (hc : c ∈ clauses) :
    c.names ⊆ distinctNames clauses :=
  fun _ hname => mem_distinctNames.2 ⟨c, hc, hname⟩

/-! ### Occurrences -/

/-- **The occurrences of a name** in clauses that are numbered from `first` on. -/
def occurrencesFrom (first : Nat) (clauses : List Clause) (name : Nat) : List Occurrence :=
  (clauses.zipIdx first).filterMap fun (c, number) => c.polarities[name]?.map (⟨number, ·⟩)

theorem occurrencesFrom_cons (first : Nat) (c : Clause) (cs : List Clause) (name : Nat) :
    occurrencesFrom first (c :: cs) name =
      (c.polarities[name]?.map (⟨first, ·⟩)).toList ++ occurrencesFrom (first + 1) cs name := by
  rw [occurrencesFrom, List.zipIdx_cons, List.filterMap_cons]
  cases hp : c.polarities[name]? with
  | none => simp [hp, occurrencesFrom]
  | some positive => simp [hp, occurrencesFrom]

/-- A list of pairs with distinct names holds at most one pair under a given name. -/
private theorem filter_eq_singleton {pairs : List (Nat × Bool)} {p : Nat × Bool}
    (hdistinct : pairs.Pairwise fun a b => a.1 ≠ b.1) (hp : p ∈ pairs) :
    pairs.filter (·.1 = p.1) = [p] := by
  induction pairs with
  | nil => simp at hp
  | cons q qs ih =>
      obtain ⟨hq, hqs⟩ := List.pairwise_cons.1 hdistinct
      rcases List.mem_cons.1 hp with rfl | hp
      · have hnone : qs.filter (·.1 = p.1) = [] := by
          rw [List.filter_eq_nil_iff]
          intro r hr
          simpa using (hq r hr).symm
        simp [hnone]
      · have hne : ¬ q.1 = p.1 := hq p hp
        simp [hne, ih hqs hp]

/-- What a clause contributes under one name: the polarity it records, if it records one. -/
private theorem filter_toList_polarities (c : Clause) (name : Nat) :
    c.polarities.toList.filter (·.1 = name) = (c.polarities[name]?.map (name, ·)).toList := by
  cases hp : c.polarities[name]? with
  | none =>
      simp only [Option.map_none, Option.toList_none, List.filter_eq_nil_iff]
      rintro ⟨n, positive⟩ hmem heq
      have hn : n = name := by simpa using heq
      subst hn
      rw [Std.TreeMap.mem_toList_iff_getElem?_eq_some, hp] at hmem
      cases hmem
  | some positive =>
      have hdistinct : c.polarities.toList.Pairwise fun a b => a.1 ≠ b.1 := by
        refine List.Pairwise.imp ?_ Std.TreeMap.distinct_keys_toList
        intro a b h hab
        exact h (Nat.compare_eq_eq.2 hab)
      exact filter_eq_singleton hdistinct (Std.TreeMap.mem_toList_iff_getElem?_eq_some.2 hp)

/-- The occurrences under a name, out of those of all names. -/
theorem filter_occurrences (active : List Clause) (name : Nat) :
    ((occurrences active).filter (·.1 = name)).map (·.2) = occurrencesFrom 1 active name := by
  rw [occurrences, occurrencesFrom, List.filter_flatMap, List.map_flatMap,
    List.filterMap_eq_flatMap_toList]
  congr 1
  funext ⟨c, number⟩
  have hfilter := filter_toList_polarities c name
  simp only [List.filter_map, Function.comp_def, List.map_map] at hfilter ⊢
  rw [hfilter]
  cases c.polarities[name]? <;> rfl

/-- **A clause holds a variable at most once**, and then with the polarity it records. -/
theorem countP_occurrencesFrom (first : Nat) (clauses : List Clause) (name k : Nat)
    (q : Bool → Bool) :
    (occurrencesFrom first clauses name).countP (fun o => o.clause = first + k && q o.positive) =
      if (clauses[k]?.bind (·.polarities[name]?)).any q then 1 else 0 := by
  induction clauses generalizing first k with
  | nil => simp [occurrencesFrom]
  | cons c cs ih =>
      rw [occurrencesFrom_cons, List.countP_append]
      cases k with
      | zero =>
          -- the occurrences in the later clauses have greater numbers
          have hlater : (occurrencesFrom (first + 1) cs name).countP
              (fun o => o.clause = first + 0 && q o.positive) = 0 := by
            rw [List.countP_eq_zero]
            intro o ho
            obtain ⟨⟨d, number⟩, hd, ho⟩ := List.mem_filterMap.1 ho
            obtain ⟨positive, -, rfl⟩ := Option.map_eq_some_iff.1 ho
            have hle := (List.mk_mem_zipIdx_iff_le_and_getElem?_sub.1 hd).1
            simp
            omega
          rw [hlater, List.getElem?_cons_zero, Option.bind_some]
          cases c.polarities[name]? with
          | none => rfl
          | some positive => cases hq : q positive <;> simp [hq]
      | succ k =>
          have hstep : first + (k + 1) = first + 1 + k := by omega
          rw [hstep, ih (first + 1) k, List.getElem?_cons_succ]
          have hhead : ∀ os : Option Bool, (os.map (Occurrence.mk first ·)).toList.countP
              (fun o => o.clause = first + 1 + k && q o.positive) = 0 := by
            rintro (_ | positive)
            · rfl
            · have hne : first ≠ first + 1 + k := by omega
              simp [hne]
          rw [hhead, Nat.zero_add]

theorem clause_of_mem_occurrencesFrom {first : Nat} {clauses : List Clause} {name : Nat}
    {o : Occurrence} (h : o ∈ occurrencesFrom first clauses name) :
    ∃ k c, o.clause = first + k ∧ clauses[k]? = some c ∧
      c.polarities[name]? = some o.positive := by
  obtain ⟨⟨c, number⟩, hc, ho⟩ := List.mem_filterMap.1 h
  obtain ⟨positive, hpositive, rfl⟩ := Option.map_eq_some_iff.1 ho
  obtain ⟨hle, hget⟩ := List.mk_mem_zipIdx_iff_le_and_getElem?_sub.1 hc
  exact ⟨number - first, c, (Nat.add_sub_cancel' hle).symm, hget, hpositive⟩

/-- Every clause that records a name has an occurrence. -/
theorem mem_occurrencesFrom {first k : Nat} {clauses : List Clause} {name : Nat} {c : Clause}
    {positive : Bool} (hk : clauses[k]? = some c) (hp : c.polarities[name]? = some positive) :
    ⟨first + k, positive⟩ ∈ occurrencesFrom first clauses name := by
  refine List.mem_filterMap.2 ⟨(c, first + k), ?_, ?_⟩
  · rw [List.mk_mem_zipIdx_iff_le_and_getElem?_sub, Nat.add_sub_cancel_left]
    exact ⟨Nat.le_add_right first k, hk⟩
  · simp only [hp, Option.map_some]

/-- The negated occurrences of all variables, variable by variable. -/
def falseOccurrences (active : List Clause) : List Occurrence :=
  (distinctNames active).flatMap fun name => (occurrencesFrom 1 active name).filter (!·.positive)

/-- **The negated occurrences in a clause** are its true literals when all variables are false. -/
theorem countP_falseOccurrences {active : List Clause} {k : Nat} {c : Clause}
    (hk : active[k]? = some c) (hc : c.isTautology = false) :
    (falseOccurrences active).countP (·.clause = 1 + k) = c.trueCount fun _ => false := by
  have hone : ∀ name, ((occurrencesFrom 1 active name).filter (!·.positive)).countP
      (·.clause = 1 + k) = if c.polarities[name]? = some false then 1 else 0 := by
    intro name
    rw [List.countP_filter, countP_occurrencesFrom 1 active name k (!·), hk, Option.bind_some]
    cases c.polarities[name]? with
    | none => rfl
    | some positive => cases positive <;> rfl
  rw [falseOccurrences, List.countP_flatMap]
  simp only [Function.comp_def, hone]
  rw [← List.sum_toFinset _ (nodup_distinctNames active), ← Finset.card_filter, Clause.trueCount]
  congr 1
  ext name
  rw [Finset.mem_filter, List.mem_toFinset, Clause.mem_trueNames_iff_polarities hc]
  refine ⟨fun h => h.2, fun h => ⟨?_, h⟩⟩
  refine names_subset_distinctNames (List.mem_of_getElem? hk) ?_
  exact Clause.mem_names.2 ⟨false, (Clause.polarities_eq_some_iff hc).1 h⟩

/-! ### Clauses that can be encoded -/

/-- What a clause needs to be encoded. -/
theorem Clause.checkAdmitted_eq_ok_iff {c : Clause} :
    c.checkAdmitted = .ok () ↔
      c.literals ≠ [] ∧ (c.weight.isFinite = true ∧ 0.0 < c.weight) ∧
        ∀ l ∈ c.literals, Clause.admitsName l.name = true := by
  have hweight : (c.weight.isFinite && decide (0.0 < c.weight)) = true ↔
      c.weight.isFinite = true ∧ 0.0 < c.weight := by
    rw [Bool.and_eq_true, decide_eq_true_iff]
  rw [Clause.checkAdmitted, ← hweight]
  split
  · rename_i hempty
    simp [List.isEmpty_iff.1 hempty]
  · rename_i hempty
    have hne : c.literals ≠ [] := mt List.isEmpty_iff.2 hempty
    cases c.weight.isFinite && decide (0.0 < c.weight) with
    | false => simp
    | true =>
        cases hfind : c.literals.find? fun l => !Clause.admitsName l.name with
        | some l =>
            have hl := List.find?_some hfind
            have hmem := List.mem_of_find?_eq_some hfind
            simp only [Bool.not_true, Bool.false_eq_true, if_false, reduceCtorEq, false_iff]
            rintro ⟨-, -, hall⟩
            rw [hall l hmem] at hl
            cases hl
        | none =>
            have hall := List.find?_eq_none.1 hfind
            simp only [Bool.not_true, Bool.false_eq_true, if_false, true_iff, true_and]
            exact ⟨hne, fun l hl => by simpa using hall l hl⟩

/-! ### The tables -/

namespace Encoding

@[simp] theorem names_ofActive (active : List Clause) (freeNames : List Nat) :
    (ofActive active freeNames).names = (distinctNames active).toArray := rfl

@[simp] theorem weights_ofActive (active : List Clause) (freeNames : List Nat) :
    (ofActive active freeNames).weights = (0.0 :: active.map (·.weight)).toArray := rfl

@[simp] theorem freeNames_ofActive (active : List Clause) (freeNames : List Nat) :
    (ofActive active freeNames).freeNames = freeNames := rfl

/-- **The occurrences of the variables**, each found by asking the clauses in order. -/
theorem affected_ofActive (active : List Clause) (freeNames : List Nat) :
    (ofActive active freeNames).affected =
      ((distinctNames active).map (occurrencesFrom 1 active)).toArray := by
  simp only [ofActive, getD_groupByName, filter_occurrences]

/-- A bound of the greatest of numbers bounds each of them. -/
theorem foldl_max_le_iff {α : Type} [LinearOrder α] {ns : List α} {b n : α} :
    ns.foldl max b ≤ n ↔ b ≤ n ∧ ∀ m ∈ ns, m ≤ n := by
  induction ns generalizing b with
  | nil => simp
  | cons m ns ih => rw [List.foldl_cons, ih, max_le_iff, List.forall_mem_cons, and_assoc]

/-- The recorded width is that of the widest active clause. -/
theorem maxWidth_le_iff {active : List Clause} {freeNames : List Nat} {n : Nat} :
    (ofActive active freeNames).maxWidth ≤ n ↔ ∀ c ∈ active, c.width ≤ n := by
  change (active.map (·.width)).foldl max 0 ≤ n ↔ _
  rw [foldl_max_le_iff, List.forall_mem_map]
  exact and_iff_right (Nat.zero_le n)

/-! ### Which clauses are encoded -/

theorem mem_activeClauses {clauses : List Clause} {c : Clause} :
    c ∈ activeClauses clauses ↔ c ∈ clauses ∧ c.isTautology = false := by
  simp [activeClauses]

/-- The active clauses hold no literal beside its negation. -/
theorem activeClauses_eq (clauses : List Clause) :
    activeClauses clauses = clauses.filter fun c => ∀ l ∈ c.literals, l.negate ∉ c.literals := by
  refine List.filter_congr ?_
  intro c _
  rw [Bool.eq_iff_iff, Bool.not_eq_true', decide_eq_true_iff, ← Bool.not_eq_true,
    Clause.isTautology_eq_true_iff]
  push Not
  rfl

private theorem forM_checkAdmitted_eq_ok_iff {clauses : List Clause} :
    clauses.forM Clause.checkAdmitted = .ok () ↔ ∀ c ∈ clauses, c.checkAdmitted = .ok () := by
  induction clauses with
  | nil => simp [pure, Except.pure]
  | cons c cs ih =>
      rw [List.forM_eq_forM, List.forM_cons, List.forall_mem_cons, ← ih]
      cases c.checkAdmitted with
      | error e => simp [bind, Except.bind]
      | ok u => simp [bind, Except.bind]

/-- **Clauses are encoded exactly when each is admitted and the active ones can be numbered**; the
tables are then those of the active clauses. -/
theorem build_eq_ok_iff {clauses : List Clause} {e : Encoding} :
    build clauses = .ok e ↔
      (∀ c ∈ clauses, c.checkAdmitted = .ok ()) ∧
        (activeClauses clauses).length ≤ maxClauses ∧
        e = ofActive (activeClauses clauses) (freeNamesOf clauses) := by
  rw [← forM_checkAdmitted_eq_ok_iff, build]
  cases clauses.forM Clause.checkAdmitted with
  | error err => simp [bind, Except.bind]
  | ok u =>
      by_cases hlen : maxClauses < (activeClauses clauses).length
      · have hnot : ¬ (activeClauses clauses).length ≤ maxClauses := by omega
        simp [bind, Except.bind, hlen, hnot, throw, throwThe, MonadExceptOf.throw]
      · have hle : (activeClauses clauses).length ≤ maxClauses := by omega
        simp [bind, Except.bind, pure, Except.pure, hlen, hle, eq_comm]

/-- What the clauses of an encoding have in common. -/
theorem admitted_of_build {clauses : List Clause} {e : Encoding} (h : build clauses = .ok e)
    {c : Clause} (hc : c ∈ clauses) :
    c.literals ≠ [] ∧ (c.weight.isFinite = true ∧ 0.0 < c.weight) ∧
      ∀ l ∈ c.literals, Clause.admitsName l.name = true :=
  Clause.checkAdmitted_eq_ok_iff.1 ((build_eq_ok_iff.1 h).1 c hc)

end Encoding

end WeightedSat
