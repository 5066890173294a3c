import WeightedSat.CommandLine.Run
import WeightedSat.Proofs.Differences
import WeightedSat.Proofs.History
import WeightedSat.Proofs.Loading
import WeightedSat.Proofs.Price
import WeightedSat.Proofs.Sides

/-!
**The width of the counters does not show.**

A model can be given counters of another width.  This succeeds exactly when the new counters can
count the variables of the widest active clause, and then nothing that local search computes
changes: the counters of a state are determined by its assignment, whatever their width, so two
models of the same clauses that are run side by side go through the same states.

Main results:

* `WeightedSat.Model.Configured.withWidth_eq_ok_iff` — which widths are accepted;
* `WeightedSat.Model.Counts.flips_withWidth` — runs of two widths go through the same states;
* `WeightedSat.Model.Configured.withWidth_narrowest` — the narrowest width is the least one that is
  accepted;
* `WeightedSat.Model.withWidth_lockstep` — **the width of the counters does not show**.
-/

set_option relaxedAutoImplicit false
set_option autoImplicit false

namespace WeightedSat

namespace Model

variable {m n : Model} {active clauses : List Clause} {s : State} {width : CounterWidth}

/-! ### Which widths are accepted -/

/-- **A width is accepted exactly when it can count the widest clause**; the encoding is kept. -/
theorem Configured.withWidth_eq_ok_iff (hm : m.Configured clauses) :
    m.withWidth width = .ok n ↔
      m.encoding.maxWidth ≤ width.capacity ∧ n = ⟨width, m.encoding?⟩ := by
  obtain ⟨e, -, -, hencoding⟩ := hm.encoding?_eq
  rw [Model.withWidth, encoding, hencoding, Option.getD_some]
  exact ofEncoding_eq_ok_iff

theorem capacity_narrowest {count : Nat} (h : count ≤ CounterWidth.thirtyTwo.capacity) :
    count ≤ (CounterWidth.narrowest count).capacity := by
  rw [CounterWidth.narrowest]
  split
  · assumption
  · split
    · assumption
    · exact h

/-- No width with fewer bits than the narrowest one is enough. -/
theorem capacity_lt_of_bits_lt {count : Nat}
    (h : width.bits < (CounterWidth.narrowest count).bits) : width.capacity < count := by
  rw [CounterWidth.narrowest] at h
  split at h
  · cases width <;> simp [CounterWidth.bits] at h
  · rename_i height
    split at h
    · cases width with
      | eight => exact Nat.lt_of_not_le height
      | sixteen => simp [CounterWidth.bits] at h
      | thirtyTwo => simp [CounterWidth.bits] at h
    · rename_i hsixteen
      cases width with
      | eight => exact Nat.lt_of_not_le height
      | sixteen => exact Nat.lt_of_not_le hsixteen
      | thirtyTwo => simp [CounterWidth.bits] at h

/-- **The narrowest width for the widest clause is the least one that is accepted**, for a model
whose own counters have thirty-two bits. -/
theorem Configured.withWidth_narrowest (hm : m.Configured clauses) (hwide : m.width = .thirtyTwo) :
    m.withWidth (.narrowest m.encoding.maxWidth) =
        .ok ⟨.narrowest m.encoding.maxWidth, m.encoding?⟩ ∧
      ∀ other : CounterWidth, other.bits < (CounterWidth.narrowest m.encoding.maxWidth).bits →
        ∀ n, m.withWidth other ≠ .ok n := by
  obtain ⟨e, -, hcapacity, hencoding⟩ := hm.encoding?_eq
  have hmax : m.encoding.maxWidth ≤ CounterWidth.thirtyTwo.capacity := by
    rw [← hwide, encoding, hencoding]
    exact hcapacity
  refine ⟨hm.withWidth_eq_ok_iff.2 ⟨capacity_narrowest hmax, rfl⟩, ?_⟩
  intro other hother n hn
  have hle := (hm.withWidth_eq_ok_iff.1 hn).1
  exact absurd hle (Nat.not_le_of_lt (capacity_lt_of_bits_lt hother))

/-! ### Runs of two widths -/

/-- The invariant speaks about the encoding, not about the width. -/
theorem Counts.withWidth (hs : m.Counts active s) (width : CounterWidth) :
    Counts ⟨width, m.encoding?⟩ active s :=
  ⟨hs.assignment_size, hs.counters_size, hs.counter_zero, hs.counter_succ⟩

/-- **Starting from an assignment gives the same state** with counters of either width. -/
theorem Encodes.startFrom_withWidth (he : m.Encodes active)
    (he' : Encodes ⟨width, m.encoding?⟩ active) {assignment : List Bool}
    (hlength : assignment.length = m.variableCount) :
    ∃ s, m.startFrom assignment = .ok s ∧ startFrom ⟨width, m.encoding?⟩ assignment = .ok s ∧
      m.Counts active s := by
  obtain ⟨s, hstart, hs, hread⟩ := he.startFrom_counts hlength
  obtain ⟨t, hstart', ht, hread'⟩ := he'.startFrom_counts hlength
  have hst : s = t :=
    (hs.withWidth width).ext he' ht (Array.toList_inj.1 (hread.trans hread'.symm))
  exact ⟨s, hstart, by rw [hst]; exact hstart', hs⟩

/-- **Runs of two widths go through the same states.** -/
theorem Counts.flips_withWidth (he : m.Encodes active)
    (he' : Encodes ⟨width, m.encoding?⟩ active) (hs : m.Counts active s) {fs : List Nat}
    (hfs : ∀ i ∈ fs, i < m.variableCount) :
    ∃ t, m.flips s fs = .ok t ∧ Model.flips ⟨width, m.encoding?⟩ s fs = .ok t ∧
      m.Counts active t := by
  obtain ⟨t, hflips, ht, hread⟩ := hs.exists_flips he hfs
  obtain ⟨u, hflips', hu, hread'⟩ := (hs.withWidth width).exists_flips he' hfs
  have htu : t = u :=
    (ht.withWidth width).ext he' hu (Array.toList_inj.1 (hread.trans hread'.symm))
  exact ⟨t, hflips, by rw [htu]; exact hflips', ht⟩

/-! ### The width does not show -/

/-- **The width of the counters does not show.**  A configured model accepts exactly the widths that
can count the variables of its widest active clause.  Run side by side with the model of the new
width, from any assignment and through any flips, both are in the same state, counters included,
without a counter ever leaving its range; and the price of the state, the prices of all flips, the
values of all names and the two bounds are the same.  The width that a command picks for a model
that was loaded with thirty-two bits is always accepted, and no narrower one is. -/
theorem withWidth_lockstep (hm : m.Configured clauses) :
    (∀ width : CounterWidth,
      ((∃ n, m.withWidth width = .ok n) ↔ m.encoding.maxWidth ≤ width.capacity) ∧
      ∀ n, m.withWidth width = .ok n →
        n.width = width ∧
        (∃ largest, m.maxDifference = .ok largest ∧ n.maxDifference = .ok largest) ∧
        (∃ least, m.minDifference = .ok least ∧ n.minDifference = .ok least) ∧
        ∀ assignment : List Bool, assignment.length = m.variableCount →
          ∀ fs : List Nat, (∀ i ∈ fs, i < m.variableCount) →
            ∃ s t, m.startFrom assignment = .ok s ∧ n.startFrom assignment = .ok s ∧
              m.flips s fs = .ok t ∧ n.flips s fs = .ok t ∧
              (∃ price, m.cost t = .ok price ∧ n.cost t = .ok price) ∧
              (∀ i < m.variableCount, ∃ difference, m.costDifference t i = .ok difference ∧
                n.costDifference t i = .ok difference) ∧
              ∃ values, m.render t = .ok values ∧ n.render t = .ok values) ∧
    ∀ (look : File.Lookup) (command : CommandLine.Command), command.counterBits = none →
      Model.load .thirtyTwo look command.path = .ok m →
        ∃ n, command.model look = .ok n ∧ n.width = .narrowest m.encoding.maxWidth ∧
          m.withWidth n.width = .ok n ∧
          ∀ other : CounterWidth, other.bits < n.width.bits → ∀ k, m.withWidth other ≠ .ok k := by
  have he := hm.encodes
  refine ⟨?_, ?_⟩
  · intro width
    refine ⟨?_, ?_⟩
    · constructor
      · rintro ⟨n, hn⟩
        exact (hm.withWidth_eq_ok_iff.1 hn).1
      · intro hle
        exact ⟨_, hm.withWidth_eq_ok_iff.2 ⟨hle, rfl⟩⟩
    · intro n hn
      have he' := (Configured.withWidth hm hn).encodes
      obtain ⟨-, rfl⟩ := hm.withWidth_eq_ok_iff.1 hn
      have hlargest := he.maxDifference_eq
      have hleast := he.minDifference_eq
      refine ⟨rfl, ⟨_, hlargest, hlargest⟩, ⟨_, hleast, hleast⟩, ?_⟩
      intro assignment hlength fs hfs
      obtain ⟨s, hstart, hstart', hs⟩ := he.startFrom_withWidth he' hlength
      obtain ⟨t, hflips, hflips', ht⟩ := hs.flips_withWidth he he' hfs
      have hvalue := he.agrees_valuation ht.assignment_size
      -- prices and values are read off the encoding, which both models share
      have hcost := ht.cost_eq he hvalue
      obtain ⟨values, hvalues, -⟩ := ht.lookup_render he
      refine ⟨s, t, hstart, hstart', hflips, hflips', ⟨_, hcost, hcost⟩, ?_, values, hvalues,
        hvalues⟩
      intro i hi
      obtain ⟨name, hname⟩ := he.exists_name hi
      have hdifference := ht.costDifference_eq he hvalue hname
      exact ⟨_, hdifference, hdifference⟩
  · intro look command hbits hload
    obtain ⟨hnarrowest, hnone⟩ := hm.withWidth_narrowest (width_of_load hload)
    refine ⟨⟨.narrowest m.encoding.maxWidth, m.encoding?⟩, ?_, rfl, hnarrowest, hnone⟩
    simp [CommandLine.Command.model, hload, hbits, CommandLine.chooseWidth, hnarrowest,
      Except.mapError, bind, Except.bind]

/-- Three clauses with counters of eight and of sixteen bits, run side by side. -/
theorem withWidth_lockstep_sample :
    ∃ n s t price, sampleModel.withWidth .sixteen = .ok n ∧
      sampleModel.startFrom [true, false, true] = .ok s ∧ n.startFrom [true, false, true] = .ok s ∧
      sampleModel.flips s [0, 2, 0] = .ok t ∧ n.flips s [0, 2, 0] = .ok t ∧
      sampleModel.cost t = .ok price ∧ n.cost t = .ok price := by
  obtain ⟨haccepted, hruns⟩ := (withWidth_lockstep sampleModel_configured).1 .sixteen
  obtain ⟨n, hn⟩ := haccepted.2 (by decide)
  obtain ⟨-, -, -, hstates⟩ := hruns n hn
  obtain ⟨s, t, hs, hs', ht, ht', ⟨price, hprice, hprice'⟩, -⟩ :=
    hstates [true, false, true] (by decide) [0, 2, 0] (by decide)
  exact ⟨n, s, t, price, hn, hs, hs', ht, ht', hprice, hprice'⟩

end Model

end WeightedSat
