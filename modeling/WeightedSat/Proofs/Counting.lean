import WeightedSat.Proofs.Configured

/-!
**The counters count the true literals.**

A state carries, beside its assignment, a counter for every active clause.  A flip never recounts a
clause: it steps the counters of the clauses that the flipped variable occurs in.  This module
states what the counters are meant to hold as an invariant of states, and proves that a flip of any
variable succeeds and keeps it.

The invariant, `WeightedSat.Model.Counts`, speaks about *every* valuation of the names that agrees
with the assignment.  A flip keeps it because the occurrences of a variable step each counter at
most once, in the direction in which the number of true literals moves; and because that number
lies between zero and the width of the clause, no counter leaves its range.

Main definitions:

* `WeightedSat.Model.Agrees`, `WeightedSat.Model.valuation` — states as valuations of the names;
* `WeightedSat.Model.Counts` — **the invariant**.

Main results:

* `WeightedSat.foldlM_stepCounter` — what a sequence of counter steps does;
* `WeightedSat.Model.Counts.foldlM_touch` — the steps of a flip follow the true literals;
* `WeightedSat.Model.Counts.flip` — **a flip succeeds and keeps the invariant**.
-/

set_option relaxedAutoImplicit false
set_option autoImplicit false

namespace WeightedSat

/-! ### Sequences of counter steps -/

/-- A step that stays within the range of its counter. -/
theorem stepCounter_eq_ok {width : CounterWidth} {counters : Array Nat} {number n : Nat}
    {up : Bool} (hn : counters[number]? = some n) (hup : up = true → n < width.capacity)
    (hdown : up = false → 0 < n) :
    stepCounter width counters number up =
      .ok (counters.setIfInBounds number (if up then n + 1 else n - 1)) := by
  cases up with
  | true =>
      have hstep : width.step true n = .ok (n + 1) :=
        CounterWidth.increment_eq_ok_iff.2 ⟨hup rfl, rfl⟩
      simp [stepCounter, hn, hstep, Except.map]
  | false =>
      have hstep : width.step false n = .ok (n - 1) :=
        CounterWidth.decrement_eq_ok_iff.2 ⟨hdown rfl, rfl⟩
      simp [stepCounter, hn, hstep, Except.map]

/-- Reading the counters after one of them has been changed. -/
theorem getElem?_setIfInBounds_map {counters : Array Nat} {number n : Nat}
    (hn : counters[number]? = some n) (f : Nat → Nat) (k : Nat) :
    (counters.setIfInBounds number (f n))[k]? =
      counters[k]?.map fun x => if number = k then f x else x := by
  by_cases hk : number = k
  · subst hk
    have hlt := (Array.getElem?_eq_some_iff.1 hn).1
    rw [hn]
    simp [hlt]
  · rw [Array.getElem?_setIfInBounds_ne hk]
    cases counters[k]? <;> simp [hk]

/-- **What a sequence of counter steps does.**  If no counter would overflow on its steps up alone
nor underflow on its steps down alone, then all steps succeed in whatever order they come, and each
counter has moved by the difference. -/
theorem foldlM_stepCounter (width : CounterWidth) (up : Occurrence → Bool) (os : List Occurrence)
    (counters : Array Nat) (hsize : ∀ o ∈ os, o.clause < counters.size)
    (hrange : ∀ k n, counters[k]? = some n →
      n + os.countP (fun o => o.clause = k && up o) ≤ width.capacity ∧
        os.countP (fun o => o.clause = k && !up o) ≤ n) :
    ∃ stepped, os.foldlM (fun cs o => stepCounter width cs o.clause (up o)) counters =
        .ok stepped ∧
      stepped.size = counters.size ∧
      ∀ k n, counters[k]? = some n → stepped[k]? =
        some (n + os.countP (fun o => o.clause = k && up o) -
          os.countP (fun o => o.clause = k && !up o)) := by
  induction os generalizing counters with
  | nil => exact ⟨counters, rfl, rfl, fun k n h => by simpa using h⟩
  | cons o os ih =>
      have ho : o.clause < counters.size := hsize o (List.mem_cons_self ..)
      obtain ⟨n, hn⟩ : ∃ n, counters[o.clause]? = some n := ⟨_, Array.getElem?_eq_getElem ho⟩
      have hown := hrange o.clause n hn
      simp only [List.countP_cons, decide_true, Bool.true_and] at hown
      have hstep : stepCounter width counters o.clause (up o) =
          .ok (counters.setIfInBounds o.clause (if up o then n + 1 else n - 1)) := by
        refine stepCounter_eq_ok hn ?_ ?_
        · intro hup
          rw [hup] at hown
          simp only [if_true] at hown
          omega
        · intro hdown
          rw [hdown] at hown
          simp only [Bool.not_false, if_true] at hown
          omega
      have hget := getElem?_setIfInBounds_map hn fun x => if up o then x + 1 else x - 1
      -- the rest of the steps finds every counter where the first step has left it room
      obtain ⟨stepped, hfold, hsz, hres⟩ := ih
        (counters.setIfInBounds o.clause (if up o then n + 1 else n - 1))
        (by
          intro o' ho'
          simpa using hsize o' (List.mem_cons_of_mem _ ho'))
        (by
          intro k x hx
          rw [hget, Option.map_eq_some_iff] at hx
          obtain ⟨y, hy, rfl⟩ := hx
          have hk := hrange k y hy
          simp only [List.countP_cons] at hk
          by_cases hko : o.clause = k
          · cases hup : up o <;> simp [hko, hup] at hk ⊢ <;> omega
          · simp [hko] at hk ⊢
            omega)
      refine ⟨stepped, ?_, by simpa using hsz, ?_⟩
      · rw [List.foldlM_cons, hstep]
        exact hfold
      · intro k x hx
        rw [hres k _ ((hget k).trans (by rw [hx, Option.map_some]))]
        have hk := hrange k x hx
        simp only [List.countP_cons] at hk ⊢
        by_cases hko : o.clause = k
        · cases hup : up o <;> simp [hko, hup] at hk ⊢ <;> omega
        · simp [hko]

/-- Counting up from zero: each counter ends at the number of its steps. -/
theorem foldlM_stepCounter_up (width : CounterWidth) (os : List Occurrence) (size : Nat)
    (hsize : ∀ o ∈ os, o.clause < size)
    (hrange : ∀ k < size, os.countP (·.clause = k) ≤ width.capacity) :
    ∃ stepped, os.foldlM (fun cs o => stepCounter width cs o.clause true)
        (Array.replicate size 0) = .ok stepped ∧
      stepped.size = size ∧ ∀ k < size, stepped[k]? = some (os.countP (·.clause = k)) := by
  have hdowns : ∀ k, os.countP (fun o => o.clause = k && !true) = 0 := by
    intro k
    simp
  have hups : ∀ k, os.countP (fun o => o.clause = k && true) = os.countP (·.clause = k) := by
    intro k
    simp only [Bool.and_true]
  obtain ⟨stepped, hfold, hsz, hres⟩ := foldlM_stepCounter width (fun _ => true) os
    (Array.replicate size 0) (by simpa using hsize)
    (by
      intro k n hn
      obtain ⟨hlt, hzero⟩ := Array.getElem?_eq_some_iff.1 hn
      rw [Array.size_replicate] at hlt
      rw [Array.getElem_replicate] at hzero
      rw [hups, hdowns, ← hzero, Nat.zero_add]
      exact ⟨hrange k hlt, Nat.le_refl 0⟩)
  refine ⟨stepped, hfold, by simpa using hsz, ?_⟩
  intro k hk
  rw [hres k 0 (by simp [hk]), hups, hdowns, Nat.zero_add, Nat.sub_zero]

namespace Model

/-! ### States as valuations of the names -/

/-- A valuation of the names agrees with a state when it gives every variable, under its name, the
value that the state gives it.  Other names may have any value. -/
def Agrees (m : Model) (s : State) (value : Nat → Bool) : Prop :=
  ∀ i name : Nat, m.encoding.names[i]? = some name → s.assignment[i]? = some (value name)

/-- **A state as a valuation of the names**; a name without variable is true. -/
def valuation (m : Model) (s : State) (name : Nat) : Bool :=
  ((m.encoding.index? name).bind fun i => s.assignment[i]?).getD true

variable {m : Model} {active : List Clause} {s t : State}

theorem Encodes.eq_of_names_eq (he : m.Encodes active) {i j name : Nat}
    (hi : m.encoding.names[i]? = some name) (hj : m.encoding.names[j]? = some name) : i = j := by
  rw [he.getElem?_names] at hi hj
  obtain ⟨hilt, hi⟩ := List.getElem?_eq_some_iff.1 hi
  obtain ⟨hjlt, hj⟩ := List.getElem?_eq_some_iff.1 hj
  exact (nodup_distinctNames active).getElem_inj_iff.1 (hi.trans hj.symm)

/-- The index of a variable is found by its name. -/
theorem Encodes.index?_eq_some (he : m.Encodes active) {i name : Nat}
    (hi : m.encoding.names[i]? = some name) : m.encoding.index? name = some i := by
  have hget : m.encoding.names.toList[i]? = some name := by rwa [Array.getElem?_toList]
  obtain ⟨hlt, hname⟩ := List.getElem?_eq_some_iff.1 hget
  rw [Encoding.index?, List.findIdx?_eq_some_iff_getElem]
  refine ⟨hlt, by simpa using hname, ?_⟩
  intro j hj
  have hne : m.encoding.names.toList[j] ≠ name := by
    intro heq
    have hjname : m.encoding.names[j]? = some name := by
      rw [← Array.getElem?_toList, List.getElem?_eq_getElem (hj.trans hlt), heq]
    exact absurd (he.eq_of_names_eq hjname hi) (Nat.ne_of_lt hj)
  simpa using hne

theorem Encodes.agrees_valuation (he : m.Encodes active)
    (hsize : s.assignment.size = m.variableCount) : m.Agrees s (m.valuation s) := by
  intro i name hi
  have hlt : i < s.assignment.size := by
    rw [he.getElem?_names] at hi
    rw [hsize, he.variableCount_eq]
    exact (List.getElem?_eq_some_iff.1 hi).1
  simp [valuation, he.index?_eq_some hi, Array.getElem?_eq_getElem hlt]

/-- Flipping a variable back, seen from the names: what agrees with the new state agrees with the
old one after a change of one name. -/
theorem Agrees.flip_back (he : m.Encodes active) {i name : Nat}
    (hi : m.encoding.names[i]? = some name)
    (ht : ∀ j, t.assignment[j]? = s.assignment[j]?.map (· ^^ decide (i = j)))
    {value : Nat → Bool} (hvalue : m.Agrees t value) :
    m.Agrees s (Function.update value name (!value name)) := by
  intro j other hj
  have hold := (ht j).symm.trans (hvalue j other hj)
  obtain ⟨b, hb, hxor⟩ := Option.map_eq_some_iff.1 hold
  rw [hb]
  by_cases hij : i = j
  · subst hij
    have hname : name = other := Option.some_inj.1 (hi.symm.trans hj)
    subst hname
    rw [Function.update_self, ← hxor]
    simp
  · have hne : other ≠ name := by
      rintro rfl
      exact hij (he.eq_of_names_eq hi hj)
    rw [Function.update_of_ne hne, ← hxor]
    simp [hij]

/-- Flipping a variable, seen from the names: what agrees with the old state agrees with the new one
after a change of one name. -/
theorem Agrees.flip_forth (he : m.Encodes active) {i name : Nat}
    (hi : m.encoding.names[i]? = some name)
    (ht : ∀ j, t.assignment[j]? = s.assignment[j]?.map (· ^^ decide (i = j)))
    {value : Nat → Bool} (hvalue : m.Agrees s value) :
    m.Agrees t (Function.update value name (!value name)) := by
  refine hvalue.flip_back he hi ?_
  intro j
  rw [ht j, Option.map_map]
  cases s.assignment[j]? with
  | none => rfl
  | some b => simp

/-! ### The invariant -/

/-- **The counters of a state count the true literals**: slot zero is unused, and the counter of
each active clause is the number of its true literals, whatever the names without variable are. -/
structure Counts (m : Model) (active : List Clause) (s : State) : Prop where
  /-- There is a value for every variable. -/
  assignment_size : s.assignment.size = m.variableCount
  /-- There is a counter for every active clause, after an unused one. -/
  counters_size : s.counters.size = active.length + 1
  /-- The unused counter stays zero. -/
  counter_zero : s.counters[0]? = some 0
  /-- The other counters count. -/
  counter_succ : ∀ value, m.Agrees s value → ∀ k c, active[k]? = some c →
    s.counters[k + 1]? = some (c.trueCount value)

/-- What stands in any slot: the unused zero, or the number of true literals of a clause. -/
theorem Counts.slot_cases (hs : m.Counts active s) {value : Nat → Bool} (hvalue : m.Agrees s value)
    {k n : Nat} (hk : s.counters[k]? = some n) :
    k = 0 ∧ n = 0 ∨ ∃ j c, k = 1 + j ∧ active[j]? = some c ∧ n = c.trueCount value := by
  cases k with
  | zero => exact Or.inl ⟨rfl, Option.some_inj.1 (hk.symm.trans hs.counter_zero)⟩
  | succ j =>
      have hlt : j < active.length := by
        have hsize := (Array.getElem?_eq_some_iff.1 hk).1
        rw [hs.counters_size] at hsize
        omega
      have hc := List.getElem?_eq_getElem hlt
      exact Or.inr ⟨j, _, Nat.add_comm j 1, hc,
        Option.some_inj.1 (hk.symm.trans (hs.counter_succ value hvalue j _ hc))⟩

/-- The clauses are numbered from one, so slot zero is never stepped. -/
private theorem countP_clause_zero (clauses : List Clause) (name : Nat) (q : Occurrence → Bool) :
    (occurrencesFrom 1 clauses name).countP (fun o => o.clause = 0 && q o) = 0 := by
  rw [List.countP_eq_zero]
  intro o ho
  obtain ⟨k, c, hclause, -⟩ := clause_of_mem_occurrencesFrom ho
  simp [hclause]

/-- The steps of a flip: each counter moves as the number of true literals does. -/
theorem Counts.foldlM_touch (he : m.Encodes active) (hs : m.Counts active s)
    {value : Nat → Bool} (hvalue : m.Agrees s value) (name : Nat) :
    ∃ stepped, (occurrencesFrom 1 active name).foldlM (m.touch (value name)) s.counters =
        .ok stepped ∧
      stepped.size = s.counters.size ∧ stepped[0]? = some 0 ∧
      ∀ k c, active[k]? = some c →
        stepped[k + 1]? = some (c.trueCount (Function.update value name (!value name))) := by
  have hups := fun k => countP_occurrencesFrom 1 active name k (· != value name)
  have hdowns := fun k => countP_occurrencesFrom 1 active name k (fun p => !(p != value name))
  have hbeq : (fun p => !(p != value name)) = (· == value name) := by
    funext p
    rw [bne, Bool.not_not]
  rw [hbeq] at hdowns
  obtain ⟨stepped, hfold, hsize, hres⟩ := foldlM_stepCounter m.width (·.positive != value name)
    (occurrencesFrom 1 active name) s.counters
    (by
      intro o ho
      obtain ⟨k, c, hclause, hk, -⟩ := clause_of_mem_occurrencesFrom ho
      have hlt := (List.getElem?_eq_some_iff.1 hk).1
      rw [hclause, hs.counters_size]
      omega)
    (by
      intro k n hn
      rcases hs.slot_cases hvalue hn with ⟨rfl, rfl⟩ | ⟨j, c, rfl, hj, rfl⟩
      · simp [countP_clause_zero]
      · have hc := List.mem_of_getElem? hj
        have hflip := Clause.trueCount_flip (he.isTautology_eq c hc) value name
        have hwidth := he.width_le c hc
        rw [hups, hdowns, hj, Option.bind_some]
        omega)
  refine ⟨stepped, hfold, hsize, ?_, ?_⟩
  · rw [hres 0 0 hs.counter_zero]
    simp [countP_clause_zero]
  · intro k c hk
    have hflip := Clause.trueCount_flip (he.isTautology_eq c (List.mem_of_getElem? hk)) value name
    rw [Nat.add_comm k 1, hres (1 + k) (c.trueCount value)
      (by rw [Nat.add_comm 1 k]; exact hs.counter_succ value hvalue k c hk),
      hups, hdowns, hk, Option.bind_some, hflip.2.2]

/-- **A flip succeeds, turns over one variable and keeps the invariant.** -/
theorem Counts.flip (he : m.Encodes active) (hs : m.Counts active s) {i : Nat}
    (hi : i < m.variableCount) :
    ∃ t, m.flip s i = .ok t ∧ m.Counts active t ∧
      ∀ j, t.assignment[j]? = s.assignment[j]?.map (· ^^ decide (i = j)) := by
  obtain ⟨name, hname⟩ := he.exists_name hi
  have hagrees := he.agrees_valuation hs.assignment_size
  obtain ⟨stepped, hfold, hsize, hzero, -⟩ := hs.foldlM_touch he hagrees name
  have hval := hagrees i name hname
  have hlt : i < s.assignment.size := by rwa [hs.assignment_size]
  have hassignment : ∀ j, (s.assignment.setIfInBounds i (!m.valuation s name))[j]? =
      s.assignment[j]?.map (· ^^ decide (i = j)) := by
    intro j
    by_cases hij : i = j
    · subst hij
      rw [Array.getElem?_setIfInBounds_self_of_lt hlt, hval]
      simp
    · rw [Array.getElem?_setIfInBounds_ne hij]
      simp [hij]
  refine ⟨⟨s.assignment.setIfInBounds i (!m.valuation s name), stepped⟩, ?_, ?_, hassignment⟩
  · simp [Model.flip, State.value, hval, he.affected_eq_ok hname, hfold, bind, Except.bind, pure,
      Except.pure]
  · refine ⟨?_, ?_, hzero, ?_⟩
    · simp [hs.assignment_size]
    · rw [← hs.counters_size, ← hsize]
    · intro value hvalue k c hk
      -- seen from the old state, the new valuation has one name changed
      have hback := hvalue.flip_back he hname hassignment
      obtain ⟨stepped', hfold', -, -, hsucc'⟩ := hs.foldlM_touch he hback name
      have hold : Function.update value name (!value name) name = m.valuation s name :=
        Option.some_inj.1 ((hback i name hname).symm.trans hval)
      rw [hold, hfold] at hfold'
      cases hfold'
      have hcount := hsucc' k c hk
      rwa [Function.update_idem, Function.update_self, Bool.not_not, Function.update_eq_self]
        at hcount

end Model

end WeightedSat
