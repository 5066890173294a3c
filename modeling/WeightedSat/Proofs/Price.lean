import WeightedSat.Proofs.Runs
import WeightedSat.Proofs.Tautologies

/-!
**The price of a state is the price of its valuation.**

Local search prices a state by its counters: it adds the weights of the clauses whose counter is
zero.  A formula is priced from scratch, by evaluating all of its clauses.  Both add the same
weights in the same order: clauses that are always true are never unsatisfied, and the others are
unsatisfied exactly when their counter is zero.  Nothing is assumed of the addition, so the two
sums are the same number, bit for bit.

Main results:

* `WeightedSat.Model.Counts.cost_eq` — the price of a state, in terms of the active clauses;
* `WeightedSat.Model.Counts.lookup_render`, `WeightedSat.Model.Configured.exists_render` — the
  values of a state, read off its rendering;
* `WeightedSat.Model.cost_eq_unsatisfiedWeight` — **the two prices agree** in every reachable
  state.
-/

set_option relaxedAutoImplicit false
set_option autoImplicit false

namespace WeightedSat

/-! ### Clauses that are always true -/

/-- The unsatisfied clauses are all active. -/
theorem Encoding.filter_activeClauses (clauses : List Clause) (value : Nat → Bool) :
    (activeClauses clauses).filter (!·.isSatisfiedBy value) =
      clauses.filter (!·.isSatisfiedBy value) := by
  rw [activeClauses, List.filter_filter]
  refine List.filter_congr ?_
  intro c hc
  cases hvalue : c.isSatisfiedBy value with
  | true => simp
  | false =>
      have hactive := mem_activeClauses_iff_exists_falsified.2 ⟨hc, value, hvalue⟩
      simp [(mem_activeClauses.1 hactive).2]

/-- The free names are those that occur, but in no active clause. -/
theorem Encoding.mem_freeNamesOf {clauses : List Clause} {name : Nat} :
    name ∈ freeNamesOf clauses ↔
      name ∈ distinctNames clauses ∧ name ∉ distinctNames (activeClauses clauses) := by
  have hused : (Std.TreeSet.ofList ((activeClauses clauses).flatMap Clause.names)
      compare).contains name = true ↔ name ∈ distinctNames (activeClauses clauses) := by
    rw [← Std.TreeSet.mem_iff_contains, distinctNames, Std.TreeSet.mem_toList]
  rw [freeNamesOf, List.mem_filter, Bool.not_eq_true', ← Bool.not_eq_true, hused]
  refine and_congr_left ?_
  intro hnot
  rw [mem_distinctNames, mem_distinctNames]
  constructor
  · rintro ⟨c, hc, hname⟩
    exact ⟨c, List.mem_of_mem_filter hc, hname⟩
  · rintro ⟨c, hc, hname⟩
    refine ⟨c, List.mem_filter.2 ⟨hc, ?_⟩, hname⟩
    by_contra htaut
    refine hnot (mem_distinctNames.2 ⟨c, ?_, hname⟩)
    exact mem_activeClauses.2 ⟨hc, by simpa using htaut⟩

namespace Model

variable {m : Model} {active : List Clause} {s : State}

/-! ### The price of a state -/

/-- The counters as a list: the unused one, then the numbers of true literals. -/
theorem Counts.toList_counters (hs : m.Counts active s) {value : Nat → Bool}
    (hvalue : m.Agrees s value) : s.counters.toList = 0 :: active.map (·.trueCount value) := by
  refine List.ext_getElem? ?_
  intro k
  rw [Array.getElem?_toList]
  cases k with
  | zero => rw [hs.counter_zero, List.getElem?_cons_zero]
  | succ k =>
      rw [List.getElem?_cons_succ, List.getElem?_map]
      cases hk : active[k]? with
      | none =>
          have hlen := List.getElem?_eq_none_iff.1 hk
          rw [Array.getElem?_eq_none (by rw [hs.counters_size]; omega), Option.map_none]
      | some c => rw [hs.counter_succ value hvalue k c hk, Option.map_some]

/-- **The price of a state is the sum of the weights of its unsatisfied active clauses**, added in
their order. -/
theorem Counts.cost_eq (he : m.Encodes active) (hs : m.Counts active s) {value : Nat → Bool}
    (hvalue : m.Agrees s value) :
    m.cost s = .ok (((active.filter (!·.isSatisfiedBy value)).map (·.weight)).foldl
      (· + ·) (-0.0)) := by
  have hsize : m.encoding.weights.size = s.counters.size := by
    rw [hs.counters_size, he.weights_eq]
    simp
  have hzero : ∀ c : Clause, decide (c.trueCount value = 0) = !c.isSatisfiedBy value := by
    intro c
    cases hc : c.isSatisfiedBy value <;> simp [Clause.trueCount_eq_zero_iff, hc]
  have hzip : (m.encoding.weights.toList.zip s.counters.toList).drop 1 =
      active.map fun c => (c.weight, c.trueCount value) := by
    rw [he.weights_eq, hs.toList_counters hvalue, List.zip_cons_cons, List.drop_one,
      List.tail_cons, List.zip_map']
  have hfilter : ((active.map fun c => (c.weight, c.trueCount value)).filter (·.2 = 0)).map (·.1) =
      (active.filter (!·.isSatisfiedBy value)).map (·.weight) := by
    rw [List.filter_map, List.map_map]
    simp only [Function.comp_def, hzero]
  rw [cost, if_neg (not_not_intro hsize)]
  simp only [hzip, hfilter]

/-! ### Reading the rendering of a state -/

private theorem lookup_zip {names : List Nat} (hnodup : names.Nodup) {values : List Bool}
    {i name : Nat} {b : Bool} (hname : names[i]? = some name) (hb : values[i]? = some b) :
    (names.zip values).lookup name = some b := by
  induction names generalizing values i with
  | nil => simp at hname
  | cons n ns ih =>
      obtain ⟨hn, hns⟩ := List.nodup_cons.1 hnodup
      cases values with
      | nil => simp at hb
      | cons v vs =>
          rw [List.zip_cons_cons, List.lookup_cons]
          cases i with
          | zero =>
              simp only [List.getElem?_cons_zero, Option.some_inj] at hname hb
              simp [hname, hb]
          | succ i =>
              rw [List.getElem?_cons_succ] at hname hb
              have hne : (name == n) = false := by
                rw [beq_eq_false_iff_ne]
                rintro rfl
                exact hn (List.mem_of_getElem? hname)
              rw [hne]
              exact ih hns hname hb

/-- **The values of a state, read off its rendering**: every variable has its value there under its
name, and so has every free name. -/
theorem Counts.lookup_render (he : m.Encodes active) (hs : m.Counts active s) :
    ∃ rendered, m.render s = .ok rendered ∧
      (∀ (i name : Nat) (b : Bool), m.encoding.names[i]? = some name →
        s.assignment[i]? = some b → rendered.lookup name = some b) ∧
      ∀ name ∈ m.encoding.freeNames, (rendered.lookup name).isSome := by
  have hsize : s.assignment.size = m.encoding.names.size := by
    rw [hs.assignment_size, he.variableCount_eq, he.names_eq, List.size_toArray]
  refine ⟨m.encoding.names.toList.zip s.assignment.toList ++ m.encoding.freeNames.map (·, true),
    ?_, ?_, ?_⟩
  · rw [render]
    simp only [hsize, ne_eq, not_true_eq_false, if_false]
  · intro i name b hname hb
    have hnodup : m.encoding.names.toList.Nodup := by
      rw [he.names_eq]
      exact nodup_distinctNames active
    rw [List.lookup_append, lookup_zip hnodup (by rwa [Array.getElem?_toList])
      (by rwa [Array.getElem?_toList]), Option.some_or]
  · intro name hname
    rw [List.lookup_isSome_iff]
    exact ⟨(name, true), List.mem_append_right _ (List.mem_map_of_mem hname), by simp⟩

theorem Configured.freeNames_eq {clauses : List Clause} (h : m.Configured clauses) :
    m.encoding.freeNames = Encoding.freeNamesOf clauses := by
  rw [h.encoding_eq, Encoding.freeNames_ofActive]

/-- **A rendering has a value for every name**, and is a valuation that agrees with the state. -/
theorem Configured.exists_render {clauses : List Clause} (hm : m.Configured clauses)
    (hs : m.Counts (Encoding.activeClauses clauses) s) :
    ∃ rendered, m.render s = .ok rendered ∧
      (∀ c ∈ clauses, ∀ name ∈ c.names, (rendered.lookup name).isSome) ∧
      m.Agrees s (fun name => rendered.lookup name == some true) := by
  have he := hm.encodes
  obtain ⟨rendered, hrender, hvalues, hfree⟩ := hs.lookup_render he
  have hvalue := he.agrees_valuation hs.assignment_size
  refine ⟨rendered, hrender, ?_, ?_⟩
  · intro c hc name hname
    -- a name has its value from a variable, or it is free
    by_cases hused : name ∈ distinctNames (Encoding.activeClauses clauses)
    · obtain ⟨i, hi⟩ := List.mem_iff_getElem?.1 hused
      rw [← he.getElem?_names] at hi
      rw [hvalues i name _ hi (hvalue i name hi)]
      rfl
    · refine hfree name ?_
      rw [hm.freeNames_eq, Encoding.mem_freeNamesOf]
      exact ⟨mem_distinctNames.2 ⟨c, hc, hname⟩, hused⟩
  · intro i name hi
    have hb := hvalue i name hi
    have hlookup := hvalues i name _ hi hb
    simp only [hb, hlookup]
    cases m.valuation s name <;> rfl

/-- **The price of a state is the price of its valuation.**  In every reachable state, and for every
valuation that agrees with it, the price from the counters is the price of the whole list of
clauses evaluated from scratch, negative zero where nothing is unsatisfied.  One such valuation is
read off the rendering of the state, which has a value for every name that occurs. -/
theorem cost_eq_unsatisfiedWeight {before : Model} {clauses : List Clause}
    (h : before.configure clauses = .ok m) (hs : m.Reachable s) {f : Formula}
    (hf : f.clauses = clauses) :
    (∀ value, m.Agrees s value →
        m.cost s = .ok (f.unsatisfiedWeight value) ∧
          ((∀ c ∈ clauses, c.isSatisfiedBy value = true) → m.cost s = .ok (-0.0))) ∧
      ∃ rendered, m.render s = .ok rendered ∧
        (∀ c ∈ clauses, ∀ name ∈ c.names, (rendered.lookup name).isSome) ∧
        m.Agrees s (fun name => rendered.lookup name == some true) ∧
        m.cost s = .ok (f.unsatisfiedWeight fun name => rendered.lookup name == some true) := by
  have hm := Configured.configure h
  have he := hm.encodes
  have hcounts := hs.counts he
  have hprice : ∀ value, m.Agrees s value → m.cost s = .ok (f.unsatisfiedWeight value) := by
    intro value hvalue
    rw [hcounts.cost_eq he hvalue, Encoding.filter_activeClauses, Formula.unsatisfiedWeight, hf]
  refine ⟨?_, ?_⟩
  · intro value hvalue
    refine ⟨hprice value hvalue, ?_⟩
    intro hall
    have hnone : clauses.filter (!·.isSatisfiedBy value) = [] := by
      rw [List.filter_eq_nil_iff]
      intro c hc
      simp [hall c hc]
    rw [hprice value hvalue, Formula.unsatisfiedWeight, hf, hnone]
    rfl
  · obtain ⟨rendered, hrender, hnames, hagrees⟩ := hm.exists_render hcounts
    exact ⟨rendered, hrender, hnames, hagrees, hprice _ hagrees⟩

/-- On three clauses, with one variable true: the third clause is unsatisfied. -/
theorem cost_eq_unsatisfiedWeight_sample :
    ∃ s rendered, sampleModel.startFrom [true, false, false] = .ok s ∧
      sampleModel.render s = .ok rendered ∧
      sampleModel.cost s = .ok ((Formula.ofClauses .weighted none sampleClauses).unsatisfiedWeight
        fun name => rendered.lookup name == some true) := by
  have hs : sampleModel.startFrom [true, false, false] =
      .ok ⟨#[true, false, false], #[0, 2, 0]⟩ := rfl
  have hf : (Formula.ofClauses .weighted none sampleClauses).clauses = sampleClauses := rfl
  obtain ⟨-, rendered, hrender, -, -, hcost⟩ :=
    cost_eq_unsatisfiedWeight configure_sampleClauses (.start (.startFrom hs)) hf
  exact ⟨_, rendered, hs, hrender, hcost⟩

end Model

end WeightedSat
