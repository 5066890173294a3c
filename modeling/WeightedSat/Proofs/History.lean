import WeightedSat.Proofs.Runs

/-!
**States do not remember how they were reached.**

The counters of a state are determined by its assignment.  So two runs that end with the same
assignment end in the same state, counters included, although they may pass through quite different
counters on the way; and what a run of flips does to the assignment depends only on how often, odd
or even, each variable was flipped.

Main results:

* `WeightedSat.Model.Counts.ext` — the assignment determines the state;
* `WeightedSat.Model.Counts.flips_congr` — only the parities of the flips matter;
* `WeightedSat.Model.flips_eq_startFrom` — **any run ends in the state built afresh** from the
  assignment it leads to.
-/

set_option relaxedAutoImplicit false
set_option autoImplicit false

namespace WeightedSat.Model

variable {m : Model} {active : List Clause} {s t : State}

/-- **The assignment determines the state.** -/
theorem Counts.ext (he : m.Encodes active) (hs : m.Counts active s) (ht : m.Counts active t)
    (h : s.assignment = t.assignment) : s = t := by
  have hagrees := he.agrees_valuation hs.assignment_size
  have hagrees' : m.Agrees t (m.valuation s) := by
    intro i name hi
    rw [← h]
    exact hagrees i name hi
  have hcounters : s.counters = t.counters := by
    refine Array.ext_getElem? ?_
    intro k
    cases k with
    | zero => rw [hs.counter_zero, ht.counter_zero]
    | succ k =>
        by_cases hk : k < active.length
        · have hc := List.getElem?_eq_getElem hk
          rw [hs.counter_succ _ hagrees k _ hc, ht.counter_succ _ hagrees' k _ hc]
        · rw [Array.getElem?_eq_none (by rw [hs.counters_size]; omega),
            Array.getElem?_eq_none (by rw [ht.counters_size]; omega)]
  cases s
  cases t
  simp_all

/-- The assignment with the variables of `indices` turned over, each as often as it is listed. -/
def flippedAssignment (s : State) (indices : List Nat) : List Bool :=
  s.assignment.toList.mapIdx fun j b => b ^^ decide (indices.count j % 2 = 1)

@[simp] theorem length_flippedAssignment (s : State) (indices : List Nat) :
    (flippedAssignment s indices).length = s.assignment.size := by
  simp [flippedAssignment]

/-- A run of flips leads to the assignment that its parities give. -/
theorem Counts.exists_flips (he : m.Encodes active) (hs : m.Counts active s) {indices : List Nat}
    (hindices : ∀ i ∈ indices, i < m.variableCount) :
    ∃ t, m.flips s indices = .ok t ∧ m.Counts active t ∧
      t.assignment.toList = flippedAssignment s indices := by
  obtain ⟨t, hflips, ht, hassign⟩ := hs.flips he hindices
  refine ⟨t, hflips, ht, List.ext_getElem? ?_⟩
  intro j
  rw [Array.getElem?_toList, hassign j, flippedAssignment, List.getElem?_mapIdx,
    Array.getElem?_toList]

/-- **Only the parities of the flips matter.** -/
theorem Counts.flips_congr (he : m.Encodes active) (hs : m.Counts active s) {fs gs : List Nat}
    (hfs : ∀ i ∈ fs, i < m.variableCount) (hgs : ∀ i ∈ gs, i < m.variableCount)
    (hparity : ∀ j, fs.count j % 2 = gs.count j % 2) : m.flips s fs = m.flips s gs := by
  obtain ⟨t, htf, ht, hta⟩ := hs.exists_flips he hfs
  obtain ⟨u, hug, hu, hua⟩ := hs.exists_flips he hgs
  have hsame : flippedAssignment s fs = flippedAssignment s gs := by
    simp only [flippedAssignment, hparity]
  have htu : t = u := ht.ext he hu (Array.toList_inj.1 (hta.trans (hsame.trans hua.symm)))
  rw [htf, hug, htu]

/-- **Any run ends in the state built afresh** from the assignment in which each variable has been
turned over as often as it was flipped.  So flipping a variable twice changes nothing, the order of
flips does not matter, and a state built from an assignment has that assignment. -/
theorem flips_eq_startFrom {clauses : List Clause} (hm : m.Configured clauses)
    (hs : m.Reachable s) :
    (∀ fs : List Nat, (∀ i ∈ fs, i < m.variableCount) →
        ∃ t, m.flips s fs = .ok t ∧
          m.startFrom (s.assignment.toList.mapIdx
            fun j b => b ^^ decide (fs.count j % 2 = 1)) = .ok t) ∧
      (∀ i < m.variableCount, m.flips s [i, i] = .ok s) ∧
      (∀ fs gs : List Nat, (∀ i ∈ fs, i < m.variableCount) → fs.Perm gs →
        m.flips s fs = m.flips s gs) ∧
      (∀ assignment : List Bool, assignment.length = m.variableCount →
        ∃ t, m.startFrom assignment = .ok t ∧ t.assignment.toList = assignment) := by
  have he := hm.encodes
  have hcounts := hs.counts he
  refine ⟨?_, ?_, ?_, ?_⟩
  · intro fs hfs
    obtain ⟨t, hflips, ht, hassign⟩ := hcounts.exists_flips he hfs
    have hlength : (flippedAssignment s fs).length = m.variableCount := by
      rw [length_flippedAssignment, hcounts.assignment_size]
    obtain ⟨u, hstart, hu, hread⟩ := he.startFrom_counts hlength
    have htu : t = u := ht.ext he hu (Array.toList_inj.1 (hassign.trans hread.symm))
    exact ⟨t, hflips, by rw [htu]; exact hstart⟩
  · intro i hi
    -- two flips of one variable have the parities of no flip at all
    have hnone : m.flips s [] = .ok s := rfl
    rw [← hnone]
    refine hcounts.flips_congr he (by simpa using hi) (by simp) ?_
    intro j
    by_cases hij : i = j
    · simp [hij]
    · simp [hij]
  · intro fs gs hfs hperm
    refine hcounts.flips_congr he hfs ?_ ?_
    · intro i hi
      exact hfs i (hperm.mem_iff.2 hi)
    · intro j
      rw [hperm.count_eq]
  · intro assignment hlength
    obtain ⟨t, hstart, -, hread⟩ := he.startFrom_counts hlength
    exact ⟨t, hstart, hread⟩

/-- On three clauses: two flips of the first variable cancel out. -/
theorem flips_eq_startFrom_sample :
    ∃ s t, sampleModel.start = .ok s ∧ sampleModel.flips s [0, 2, 0] = .ok t ∧
      sampleModel.startFrom [false, false, true] = .ok t := by
  have hs : sampleModel.start = .ok ⟨#[false, false, false], #[0, 1, 1]⟩ := rfl
  obtain ⟨hfresh, -⟩ := flips_eq_startFrom sampleModel_configured (.start (.start hs))
  obtain ⟨t, ht, hstart⟩ := hfresh [0, 2, 0] (by decide)
  exact ⟨_, t, hs, ht, hstart⟩

end WeightedSat.Model
