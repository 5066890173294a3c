import WeightedSat.Proofs.Counting
import WeightedSat.Walk

/-!
**Runs of local search.**

A run starts from the state with all variables false, from a state with a given assignment or from
one with a drawn assignment, and then flips variables.  This module proves that every way to start
succeeds and gives a state whose counters count, and that this is kept by any run, so that it holds
of every reachable state.

Main definitions:

* `WeightedSat.Model.IsStart`, `WeightedSat.Model.Reachable` — the states of runs.

Main results:

* `WeightedSat.Model.Encodes.start_counts`, `WeightedSat.Model.Encodes.startFrom_counts`,
  `WeightedSat.Model.Encodes.randomState_eq` — every way to start succeeds;
* `WeightedSat.Model.Counts.flips` — **a run of flips succeeds and keeps the invariant**;
* `WeightedSat.Model.Reachable.counts` — every reachable state has the invariant;
* `WeightedSat.Model.flips_counter_eq_trueCount` — the counters after any run.
-/

set_option relaxedAutoImplicit false
set_option autoImplicit false

namespace WeightedSat.Model

variable {m : Model} {active : List Clause} {s t : State}

/-! ### Starting -/

/-- The steps of the state with all variables false: one for each negated occurrence. -/
theorem Encodes.startCounters_eq_ok (he : m.Encodes active) :
    ∃ counters, m.startCounters m.encoding = .ok counters ∧
      counters.size = active.length + 1 ∧ counters[0]? = some 0 ∧
      ∀ k c, active[k]? = some c → counters[k + 1]? = some (c.trueCount fun _ => false) := by
  have hslots : m.encoding.weights.size = active.length + 1 := by
    simp [he.weights_eq]
  have hoccurrences : (m.encoding.affected.toList.flatMap fun os => os.filter (!·.positive)) =
      falseOccurrences active := by
    rw [he.affected_eq, falseOccurrences, List.flatMap_map]
  have hclause : ∀ o ∈ falseOccurrences active, ∃ k < active.length, o.clause = 1 + k := by
    intro o ho
    obtain ⟨name, -, ho⟩ := List.mem_flatMap.1 ho
    obtain ⟨k, c, hnumber, hk, -⟩ := clause_of_mem_occurrencesFrom (List.mem_of_mem_filter ho)
    exact ⟨k, (List.getElem?_eq_some_iff.1 hk).1, hnumber⟩
  have hunused : (falseOccurrences active).countP (·.clause = 0) = 0 := by
    rw [List.countP_eq_zero]
    intro o ho
    obtain ⟨k, -, hnumber⟩ := hclause o ho
    simp [hnumber]
  have hcount : ∀ k c, active[k]? = some c →
      (falseOccurrences active).countP (·.clause = k + 1) = c.trueCount fun _ => false := by
    intro k c hk
    rw [Nat.add_comm k 1]
    exact countP_falseOccurrences hk (he.isTautology_eq c (List.mem_of_getElem? hk))
  obtain ⟨counters, hfold, hsize, hres⟩ := foldlM_stepCounter_up m.width
    (falseOccurrences active) (active.length + 1)
    (by
      intro o ho
      obtain ⟨k, hk, hnumber⟩ := hclause o ho
      omega)
    (by
      intro k hk
      cases k with
      | zero => simp [hunused]
      | succ k =>
          have hget := List.getElem?_eq_getElem (Nat.lt_of_succ_lt_succ hk)
          rw [hcount k _ hget]
          exact (Clause.trueCount_le_width _ _).trans
            (he.width_le _ (List.mem_of_getElem? hget)))
  refine ⟨counters, ?_, hsize, ?_, ?_⟩
  · rw [startCounters, hslots, hoccurrences]
    exact hfold
  · rw [hres 0 (Nat.succ_pos _), hunused]
  · intro k c hk
    have hlt := (List.getElem?_eq_some_iff.1 hk).1
    rw [hres (k + 1) (Nat.succ_lt_succ hlt), hcount k c hk]

/-- **The state with all variables false** exists and has the invariant. -/
theorem Encodes.start_counts (he : m.Encodes active) :
    ∃ s, m.start = .ok s ∧ m.Counts active s ∧
      ∀ j, s.assignment[j]? = if j < m.variableCount then some false else none := by
  obtain ⟨counters, hcounters, hsize, hzero, hsucc⟩ := he.startCounters_eq_ok
  have hassignment : ∀ j, (Array.replicate m.variableCount false)[j]? =
      if j < m.variableCount then some false else none := by
    intro j
    rw [Array.getElem?_replicate]
  refine ⟨⟨Array.replicate m.variableCount false, counters⟩, ?_, ?_, hassignment⟩
  · simp [start, requireEncoding, he.configured, hcounters, Error.ofFault, Except.mapError, bind,
      Except.bind, pure, Except.pure, variableCount]
  · refine ⟨by simp, hsize, hzero, ?_⟩
    intro value hvalue k c hk
    rw [hsucc k c hk]
    refine congrArg some (Clause.trueCount_congr ?_)
    intro name hname
    obtain ⟨i, hi⟩ := List.mem_iff_getElem?.1
      (names_subset_distinctNames (List.mem_of_getElem? hk) hname)
    rw [← he.getElem?_names] at hi
    have hfalse := (hassignment i).symm.trans (hvalue i name hi)
    split at hfalse
    · exact Option.some_inj.1 hfalse
    · cases hfalse

/-! ### Runs -/

/-- **A run of flips succeeds and keeps the invariant**; a variable is turned over once for each
time it is flipped. -/
theorem Counts.flips (he : m.Encodes active) (hs : m.Counts active s) {indices : List Nat}
    (hindices : ∀ i ∈ indices, i < m.variableCount) :
    ∃ t, m.flips s indices = .ok t ∧ m.Counts active t ∧
      ∀ j, t.assignment[j]? =
        s.assignment[j]?.map (· ^^ decide (indices.count j % 2 = 1)) := by
  induction indices generalizing s with
  | nil => exact ⟨s, rfl, hs, fun j => by simp⟩
  | cons i is ih =>
      obtain ⟨u, hflip, hu, hassign⟩ := hs.flip he (hindices i (List.mem_cons_self ..))
      obtain ⟨t, hflips, ht, hrest⟩ :=
        ih hu fun j hj => hindices j (List.mem_cons_of_mem _ hj)
      refine ⟨t, ?_, ht, ?_⟩
      · rw [Model.flips, List.foldlM_cons, hflip]
        exact hflips
      · intro j
        rw [hrest j, hassign j, Option.map_map]
        congr 1
        funext b
        -- one more flip of the same variable changes the parity of their number
        by_cases hij : i = j
        · subst hij
          have hparity : (is.count i + 1) % 2 = 1 ↔ ¬ is.count i % 2 = 1 := by omega
          rw [List.count_cons_self, decide_eq_decide.2 hparity, decide_not]
          cases b <;> cases decide (is.count i % 2 = 1) <;> simp
        · simp [hij, List.count_cons_of_ne hij]

/-- The indices of the true values, each once. -/
theorem count_trueIndices (assignment : List Bool) (j : Nat) :
    (trueIndices assignment).count j = if assignment[j]? = some true then 1 else 0 := by
  have hnodup : (trueIndices assignment).Nodup := by
    have hsub := (List.filter_sublist (p := (·.1)) (l := assignment.zipIdx)).map Prod.snd
    refine List.Nodup.sublist hsub ?_
    rw [List.zipIdx_map_snd]
    exact List.nodup_range'
  have hmem : j ∈ trueIndices assignment ↔ assignment[j]? = some true := by
    simp [trueIndices, List.mk_mem_zipIdx_iff_getElem?]
  rw [hnodup.count, if_congr hmem rfl rfl]

theorem lt_of_mem_trueIndices {assignment : List Bool} {j : Nat}
    (h : j ∈ trueIndices assignment) : j < assignment.length := by
  simp only [trueIndices, List.mem_map, List.mem_filter, Prod.exists] at h
  obtain ⟨b, i, ⟨hmem, -⟩, rfl⟩ := h
  exact (List.getElem?_eq_some_iff.1 (List.mk_mem_zipIdx_iff_getElem?.1 hmem)).1

/-- **The state with a given assignment** exists, has that assignment and the invariant. -/
theorem Encodes.startFrom_counts (he : m.Encodes active) {assignment : List Bool}
    (hlength : assignment.length = m.variableCount) :
    ∃ s, m.startFrom assignment = .ok s ∧ m.Counts active s ∧ s.assignment.toList = assignment := by
  obtain ⟨s, hstart, hs, hfalse⟩ := he.start_counts
  have hindices : ∀ i ∈ trueIndices assignment, i < m.variableCount := by
    intro i hi
    rw [← hlength]
    exact lt_of_mem_trueIndices hi
  obtain ⟨t, hflips, ht, hassign⟩ := hs.flips he hindices
  refine ⟨t, ?_, ht, ?_⟩
  · simp [startFrom, hstart, hlength, hflips, Error.ofFault, Except.mapError, bind, Except.bind]
  · refine List.ext_getElem? ?_
    intro j
    rw [Array.getElem?_toList, hassign j, hfalse j, count_trueIndices, ← hlength]
    by_cases hj : j < assignment.length
    · rw [if_pos hj, List.getElem?_eq_getElem hj]
      cases assignment[j] <;> simp
    · simp [hj]

theorem length_coins {σ : Type} [WordSource σ] (n : Nat) (drawn : List Bool) (source : σ) :
    (WordSource.coins n drawn source).1.length = n + drawn.length := by
  induction n generalizing drawn source with
  | zero => simp [WordSource.coins]
  | succ n ih =>
      rw [WordSource.coins, ih, List.length_cons]
      omega

/-- A random state is the state with the assignment that was drawn. -/
theorem Encodes.randomState_eq (he : m.Encodes active) {σ : Type} [WordSource σ] (source : σ) :
    ∃ assignment, assignment.length = m.variableCount ∧
      (m.randomState source).1 = m.startFrom assignment := by
  refine ⟨(WordSource.coins m.variableCount [] source).1, length_coins _ _ _, ?_⟩
  simp [randomState, isConfigured, he.configured]

/-! ### Reachable states -/

/-- **The states a run can start from.** -/
inductive IsStart (m : Model) : State → Prop
  /-- All variables are false. -/
  | start {s : State} (h : m.start = .ok s) : IsStart m s
  /-- The assignment is given. -/
  | startFrom {assignment : List Bool} {s : State} (h : m.startFrom assignment = .ok s) :
      IsStart m s
  /-- The assignment is drawn, from whatever source. -/
  | randomState {σ : Type} [WordSource σ] {source : σ} {s : State}
      (h : (m.randomState source).1 = .ok s) : IsStart m s

/-- **The states a run can reach**, flip by flip. -/
inductive Reachable (m : Model) : State → Prop
  /-- Every run starts somewhere. -/
  | start {s : State} (h : m.IsStart s) : Reachable m s
  /-- A flip that succeeds goes on. -/
  | flip {s t : State} {i : Nat} (hs : Reachable m s) (h : m.flip s i = .ok t) : Reachable m t

/-- An assignment of another length gives no state. -/
theorem length_of_startFrom {assignment : List Bool} (h : m.startFrom assignment = .ok s) :
    assignment.length = m.variableCount := by
  by_contra hne
  rw [startFrom] at h
  cases hstart : m.start with
  | error err => simp [hstart, bind, Except.bind] at h
  | ok u =>
      simp [hstart, hne, bind, Except.bind, throw, throwThe, MonadExceptOf.throw] at h

theorem IsStart.counts (he : m.Encodes active) (h : m.IsStart s) : m.Counts active s := by
  cases h with
  | start h =>
      obtain ⟨u, hstart, hu, -⟩ := he.start_counts
      rw [hstart] at h
      cases h
      exact hu
  | startFrom h =>
      obtain ⟨u, hstart, hu, -⟩ := he.startFrom_counts (length_of_startFrom h)
      rw [hstart] at h
      cases h
      exact hu
  | @randomState σ _ source _ h =>
      obtain ⟨assignment, hlength, heq⟩ := he.randomState_eq source
      obtain ⟨u, hstart, hu, -⟩ := he.startFrom_counts hlength
      rw [heq, hstart] at h
      cases h
      exact hu

/-- A flip that succeeds is a flip of a variable. -/
theorem lt_of_flip_eq_ok {i : Nat} (h : m.flip s i = .ok t) : i < s.assignment.size := by
  by_contra hge
  simp [Model.flip, State.value, Array.getElem?_eq_none (Nat.le_of_not_lt hge), bind,
    Except.bind] at h

/-- **Every reachable state has the invariant.** -/
theorem Reachable.counts (he : m.Encodes active) (h : m.Reachable s) : m.Counts active s := by
  induction h with
  | start h => exact h.counts he
  | flip _ h ih =>
      have hi := lt_of_flip_eq_ok h
      rw [ih.assignment_size] at hi
      obtain ⟨u, hflip, hu, -⟩ := ih.flip he hi
      rw [hflip] at h
      cases h
      exact hu

/-! ### The counters after any run -/

/-- **The counters after any run.**  A configured model can be started in every way, and flips of
its variables never fail; in the state reached, the unused counter is zero and the counter of each
clause that is not always true is the number of its variables whose literal is true, so that it is
zero exactly when the clause is unsatisfied. -/
theorem flips_counter_eq_trueCount {before : Model} {clauses : List Clause}
    (h : before.configure clauses = .ok m) :
    (∃ s, m.start = .ok s) ∧
      (∀ assignment : List Bool, assignment.length = m.variableCount →
        ∃ s, m.startFrom assignment = .ok s) ∧
      (∀ (σ : Type) [WordSource σ] (source : σ), ∃ s, (m.randomState source).1 = .ok s) ∧
      m.clauseCount = (Encoding.activeClauses clauses).length ∧
      ∀ s, m.IsStart s → ∀ indices : List Nat, (∀ i ∈ indices, i < m.variableCount) →
        ∃ t, m.flips s indices = .ok t ∧ t.assignment.size = m.variableCount ∧
          m.Agrees t (m.valuation t) ∧ t.counters.size = m.clauseCount + 1 ∧
          t.counters[0]? = some 0 ∧
          ∀ number, 1 ≤ number → number ≤ m.clauseCount →
            ∃ c, (Encoding.activeClauses clauses)[number - 1]? = some c ∧
              t.counters[number]? = some (c.trueCount (m.valuation t)) ∧
              (t.counters[number]? = some 0 ↔ c.isSatisfiedBy (m.valuation t) = false) := by
  have he := (Configured.configure h).encodes
  refine ⟨?_, ?_, ?_, he.clauseCount_eq, ?_⟩
  · obtain ⟨s, hstart, -⟩ := he.start_counts
    exact ⟨s, hstart⟩
  · intro assignment hlength
    obtain ⟨s, hstart, -⟩ := he.startFrom_counts hlength
    exact ⟨s, hstart⟩
  · intro σ _ source
    obtain ⟨assignment, hlength, heq⟩ := he.randomState_eq source
    obtain ⟨s, hstart, -⟩ := he.startFrom_counts hlength
    exact ⟨s, heq.trans hstart⟩
  · intro s hs indices hindices
    obtain ⟨t, hflips, ht, -⟩ := (hs.counts he).flips he hindices
    have hagrees := he.agrees_valuation ht.assignment_size
    refine ⟨t, hflips, ht.assignment_size, hagrees, ?_, ht.counter_zero, ?_⟩
    · rw [ht.counters_size, he.clauseCount_eq]
    · intro number hone hcount
      obtain ⟨k, rfl⟩ : ∃ k, number = k + 1 := ⟨number - 1, by omega⟩
      have hlt : k < (Encoding.activeClauses clauses).length := by
        rw [he.clauseCount_eq] at hcount
        omega
      have hk := List.getElem?_eq_getElem hlt
      have hcounter := ht.counter_succ _ hagrees k _ hk
      refine ⟨_, hk, hcounter, ?_⟩
      rw [hcounter, Option.some_inj, Clause.trueCount_eq_zero_iff]

/-- A run on three clauses: the second is left out, so the third has number two. -/
theorem flips_counter_eq_trueCount_sample :
    ∃ m s t c, (unconfigured .eight).configure sampleClauses = .ok m ∧ m.start = .ok s ∧
      m.flips s [0, 2, 0] = .ok t ∧ sampleClauses[2]? = some c ∧
      t.counters[2]? = some (c.trueCount (m.valuation t)) := by
  obtain ⟨⟨s, hs⟩, -, -, -, hruns⟩ := flips_counter_eq_trueCount configure_sampleClauses
  obtain ⟨t, ht, -, -, -, -, hcounters⟩ := hruns s (.start hs) [0, 2, 0] (by decide)
  obtain ⟨c, hc, hcount, -⟩ := hcounters 2 (by decide) (by decide)
  exact ⟨sampleModel, s, t, c, configure_sampleClauses, hs, ht, hc, hcount⟩

end WeightedSat.Model
