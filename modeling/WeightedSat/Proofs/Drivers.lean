import WeightedSat.Proofs.Differences
import WeightedSat.Proofs.Draws
import WeightedSat.Random.ChaCha

/-!
**Drivers of local search.**

A driver starts from a random state, draws variables, looks at their prices and flips some of them.
It may flip a variable as soon as it is drawn or long afterwards, once or several times, and between
the draws it may take words from the same source for decisions of its own.  All this is one step
relation.  What it keeps is that the counters count and that everything drawn is a variable, and so
no price and no flip of what has been drawn ever fails.  A walk is such a driver.

Main definitions:

* `WeightedSat.Driver` — what a driver holds;
* `WeightedSat.Model.Drives` — **the runs of drivers**.

Main results:

* `WeightedSat.Model.Drives.inRange` — **what every run of a driver keeps**;
* `WeightedSat.Model.InRange.prices_and_flips` — what has been drawn can be priced and flipped;
* `WeightedSat.Model.Drives.walk` — a walk succeeds, and is a run of a driver;
* `WeightedSat.Model.drawn_variables_in_range` — **drivers never leave the range of the variables**,
  and every variable can be drawn.
-/

set_option relaxedAutoImplicit false
set_option autoImplicit false

namespace WeightedSat

/-- What a driver of local search holds. -/
structure Driver (σ : Type) where
  /-- The current state. -/
  state : State
  /-- The variables drawn so far, the last one first. -/
  drawn : List Nat
  /-- The source of words. -/
  source : σ

namespace Model

variable {m : Model} {active clauses : List Clause} {σ : Type} {d : Driver σ}

/-! ### What has been drawn -/

/-- What every run of a driver keeps. -/
structure InRange (m : Model) (active : List Clause) (d : Driver σ) : Prop where
  /-- The counters count. -/
  counts : m.Counts active d.state
  /-- What has been drawn are variables. -/
  lt_of_mem : ∀ i ∈ d.drawn, i < m.variableCount

/-- **What has been drawn can be priced and flipped**, in every state of a run. -/
theorem InRange.prices_and_flips (he : m.Encodes active) (h : m.InRange active d) {i : Nat}
    (hi : i ∈ d.drawn) :
    (∃ price, m.costDifference d.state i = .ok price) ∧ ∃ t, m.flip d.state i = .ok t := by
  have hagrees := he.agrees_valuation h.counts.assignment_size
  obtain ⟨_, _, t, -, -, hflip, -, -, hprice, -⟩ :=
    h.counts.flip_prices he hagrees (h.lt_of_mem i hi)
  exact ⟨⟨_, hprice⟩, t, hflip⟩

/-! ### Runs -/

variable [WordSource σ]

/-- **The runs of drivers**, step by step. -/
inductive Drives (m : Model) : Driver σ → Prop
  /-- A driver starts from a random state. -/
  | start {source : σ} {s : State} (h : (m.randomState source).1 = .ok s) :
      Drives m ⟨s, [], (m.randomState source).2⟩
  /-- It draws a variable. -/
  | draw {d : Driver σ} (hd : Drives m d) :
      Drives m ⟨d.state, (m.randomVariable d.source).1 :: d.drawn, (m.randomVariable d.source).2⟩
  /-- It takes a word for a decision of its own. -/
  | spend {d : Driver σ} (hd : Drives m d) :
      Drives m ⟨d.state, d.drawn, (WordSource.next d.source).2⟩
  /-- It flips a variable that it has drawn. -/
  | flip {d : Driver σ} {i : Nat} {t : State} (hd : Drives m d) (hi : i ∈ d.drawn)
      (h : m.flip d.state i = .ok t) : Drives m ⟨t, d.drawn, d.source⟩

/-- **What every run of a driver keeps**, one case for each of its steps. -/
theorem Drives.inRange (hm : m.Configured clauses) (hn : 0 < m.variableCount) (h : m.Drives d) :
    m.InRange (Encoding.activeClauses clauses) d := by
  induction h with
  | start h => exact ⟨IsStart.counts hm.encodes (.randomState h), by simp⟩
  | draw _ ih =>
      refine ⟨ih.counts, ?_⟩
      intro i hi
      rcases List.mem_cons.1 hi with rfl | hi
      · exact hm.randomVariable_lt hn _
      · exact ih.lt_of_mem i hi
  | spend _ ih => exact ⟨ih.counts, ih.lt_of_mem⟩
  | flip _ hi h ih =>
      obtain ⟨t, hflip, ht, -⟩ := ih.counts.flip hm.encodes (ih.lt_of_mem _ hi)
      rw [h] at hflip
      cases hflip
      exact ⟨ht, ih.lt_of_mem⟩

/-! ### Walks -/

/-- One step of a walk, at a variable that has been drawn. -/
theorem Drives.walkStep (hm : m.Configured clauses) (hn : 0 < m.variableCount) (h : m.Drives d)
    (greedy : Bool) {i : Nat} (hi : i ∈ d.drawn) :
    ∃ t, m.walkStep greedy d.state i = .ok t ∧ m.Drives ⟨t, d.drawn, d.source⟩ := by
  obtain ⟨⟨price, hprice⟩, t, hflip⟩ := (h.inRange hm hn).prices_and_flips hm.encodes hi
  have hflipped : m.Drives ⟨t, d.drawn, d.source⟩ := h.flip hi hflip
  cases greedy with
  | false => exact ⟨t, hflip, hflipped⟩
  | true =>
      by_cases hrise : price ≤ 0.0
      · exact ⟨t, by simp [Model.walkStep, hprice, hrise, hflip, bind, Except.bind], hflipped⟩
      · exact ⟨d.state, by simp [Model.walkStep, hprice, hrise, bind, Except.bind, pure,
          Except.pure], h⟩

/-- **A walk succeeds, and is a run of a driver**: it draws one variable for each of its steps. -/
theorem Drives.walk (hm : m.Configured clauses) (hn : 0 < m.variableCount) (h : m.Drives d)
    (greedy : Bool) (n : Nat) (picked : List Nat) :
    ∃ picks t, (m.walk greedy n picked d.state d.source).1 = .ok (picked.reverse ++ picks, t) ∧
      picks.length = n ∧
      m.Drives ⟨t, picks.reverse ++ d.drawn, (m.walk greedy n picked d.state d.source).2⟩ := by
  induction n generalizing d picked with
  | zero => exact ⟨[], d.state, by simp [Model.walk], rfl, h⟩
  | succ n ih =>
      obtain ⟨u, hstep, hu⟩ := h.draw.walkStep hm hn greedy List.mem_cons_self
      obtain ⟨picks, t, hwalk, hlength, ht⟩ := ih hu ((m.randomVariable d.source).1 :: picked)
      have hunfold : m.walk greedy (n + 1) picked d.state d.source =
          m.walk greedy n ((m.randomVariable d.source).1 :: picked) u
            (m.randomVariable d.source).2 := by
        rw [Model.walk]
        simp only [hstep]
      refine ⟨(m.randomVariable d.source).1 :: picks, t, ?_, ?_, ?_⟩
      · rw [hunfold, hwalk]
        simp
      · rw [List.length_cons, hlength]
      · rw [hunfold]
        simpa using ht

/-! ### Every driver -/

/-- **Drivers never leave the range of the variables.**  In a configured model with a variable,
what is drawn for a flip is a variable, whatever words are delivered, and every variable is drawn
from some sequence of words; there are no more variables than names, so that no product leaves
sixty-four bits.  A run of a driver can always be started, and at any of its states all that has
been drawn can be priced and flipped, and a walk of any length goes on from there. -/
theorem drawn_variables_in_range (hm : m.Configured clauses) (hn : 0 < m.variableCount) :
    m.variableCount ≤ maxName ∧
      (∀ v : UInt32, v.toNat * m.variableCount < wordCount 64) ∧
      (∀ (σ : Type) [WordSource σ] (source : σ), (m.randomVariable source).1 < m.variableCount) ∧
      (∀ i < m.variableCount, ∃ words : Stream' UInt32, (m.randomVariable words).1 = i) ∧
      (∀ (σ : Type) [WordSource σ] (source : σ), ∃ s, (m.randomState source).1 = .ok s) ∧
      ∀ (σ : Type) [WordSource σ] (d : Driver σ), m.Drives d →
        (∀ i ∈ d.drawn, i < m.variableCount ∧
          (∃ price, m.costDifference d.state i = .ok price) ∧
            ∃ t, m.flip d.state i = .ok t) ∧
        ∀ (greedy : Bool) (n : Nat), ∃ picks t,
          (m.walk greedy n [] d.state d.source).1 = .ok (picks, t) ∧ picks.length = n ∧
            ∀ i ∈ picks, i < m.variableCount := by
  refine ⟨hm.variableCount_le_maxName, hm.mul_variableCount_lt,
    fun _ _ source => hm.randomVariable_lt hn source,
    fun _ hi => hm.exists_randomVariable_eq hi, ?_, ?_⟩
  · intro σ _ source
    obtain ⟨assignment, hlength, heq⟩ := hm.encodes.randomState_eq source
    obtain ⟨s, hstart, -⟩ := hm.encodes.startFrom_counts hlength
    exact ⟨s, heq.trans hstart⟩
  · intro σ _ d hd
    have hrange := hd.inRange hm hn
    refine ⟨fun i hi => ⟨hrange.lt_of_mem i hi, hrange.prices_and_flips hm.encodes hi⟩, ?_⟩
    intro greedy n
    obtain ⟨picks, t, hwalk, hlength, ht⟩ := hd.walk hm hn greedy n []
    refine ⟨picks, t, by simpa using hwalk, hlength, ?_⟩
    intro i hi
    exact (ht.inRange hm hn).lt_of_mem i (List.mem_append_left _ (List.mem_reverse.2 hi))

/-- On three clauses: a greedy walk of the first trajectory of a seed. -/
theorem drawn_variables_in_range_sample :
    0 < sampleModel.variableCount ∧
      (∃ words : Stream' UInt32, (sampleModel.randomVariable words).1 = 2) ∧
      ∃ s picks t, (sampleModel.randomState (Generator.trajectory 7 0)).1 = .ok s ∧
        (sampleModel.walk true 150 [] s
          (sampleModel.randomState (Generator.trajectory 7 0)).2).1 = .ok (picks, t) ∧
        picks.length = 150 ∧ ∀ i ∈ picks, i < 3 := by
  have hn : 0 < sampleModel.variableCount := by decide
  obtain ⟨-, -, -, hall, hstart, hruns⟩ := drawn_variables_in_range sampleModel_configured hn
  obtain ⟨s, hs⟩ := hstart Generator (.trajectory 7 0)
  obtain ⟨-, hwalk⟩ := hruns Generator _ (.start hs)
  obtain ⟨picks, t, hpicks, hlength, hrange⟩ := hwalk true 150
  exact ⟨hn, hall 2 (by decide), s, picks, t, hs, hpicks, hlength, hrange⟩

end Model

end WeightedSat
