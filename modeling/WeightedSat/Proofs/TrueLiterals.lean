import Mathlib.Data.Finset.Card
import WeightedSat.Clause

/-!
**The true literals of a clause.**

Under a valuation of the names, a variable of a clause is *true in it* when the clause holds the
literal that the valuation makes true.  This module says how many such variables a clause has, how
the number changes when one name changes its value, and that it never exceeds the width of the
clause.

A clause that is not always true holds each of its variables with one polarity only.  That is what
`WeightedSat.Clause.polarities` records, and what makes a change of one name move the number by
exactly one.

Main definitions:

* `WeightedSat.Clause.trueNames`, `WeightedSat.Clause.trueCount` — the variables that are true in
  a clause, and their number.

Main results:

* `WeightedSat.Clause.trueCount_eq_zero_iff` — the number is zero exactly when the clause is
  unsatisfied;
* `WeightedSat.Clause.getElem?_polarities` — the recorded polarities, in terms of the literals;
* `WeightedSat.Clause.trueCount_update_of_true`, `WeightedSat.Clause.trueCount_update_of_false`,
  `WeightedSat.Clause.trueCount_update_of_absent` — one name changes its value;
* `WeightedSat.Clause.trueCount_flip` — **how far a change of one name moves the number**, without
  leaving the range from zero to the width.
-/

set_option relaxedAutoImplicit false
set_option autoImplicit false

namespace WeightedSat

/-- A literal is true when its polarity is the value of its variable. -/
theorem Literal.eval_eq_true_iff {l : Literal} {b : Bool} : l.eval b = true ↔ l.positive = b := by
  obtain ⟨name, positive⟩ := l
  cases positive <;> cases b <;> simp [eval]

namespace Clause

/-! ### Names that are true in a clause -/

/-- The variables of a clause whose literal there is true. -/
def trueNames (c : Clause) (value : Nat → Bool) : Finset Nat :=
  ((c.literals.filter fun l => l.eval (value l.name)).map (·.name)).toFinset

/-- **The number of distinct variables of a clause whose literal there is true.** -/
def trueCount (c : Clause) (value : Nat → Bool) : Nat :=
  (c.trueNames value).card

theorem mem_trueNames {c : Clause} {value : Nat → Bool} {name : Nat} :
    name ∈ c.trueNames value ↔ ⟨name, value name⟩ ∈ c.literals := by
  simp only [trueNames, List.mem_toFinset, List.mem_map, List.mem_filter, Literal.eval_eq_true_iff]
  constructor
  · rintro ⟨l, ⟨hl, hpos⟩, rfl⟩
    rwa [← hpos]
  · intro h
    exact ⟨_, ⟨h, rfl⟩, rfl⟩

theorem mem_names {c : Clause} {name : Nat} :
    name ∈ c.names ↔ ∃ positive, ⟨name, positive⟩ ∈ c.literals := by
  simp only [names, List.mem_map]
  constructor
  · rintro ⟨l, hl, rfl⟩
    exact ⟨l.positive, hl⟩
  · rintro ⟨positive, h⟩
    exact ⟨_, h, rfl⟩

theorem trueNames_subset_names (c : Clause) (value : Nat → Bool) :
    c.trueNames value ⊆ c.names.toFinset := by
  intro name h
  exact List.mem_toFinset.2 (mem_names.2 ⟨_, mem_trueNames.1 h⟩)

/-- Only the values of the names of a clause matter to it. -/
theorem trueCount_congr {c : Clause} {v w : Nat → Bool} (h : ∀ name ∈ c.names, v name = w name) :
    c.trueCount v = c.trueCount w := by
  have hset : c.trueNames v = c.trueNames w := by
    ext name
    rw [mem_trueNames, mem_trueNames]
    constructor <;> intro hmem
    · rwa [← h name (mem_names.2 ⟨_, hmem⟩)]
    · rwa [h name (mem_names.2 ⟨_, hmem⟩)]
  rw [trueCount, trueCount, hset]

/-- **A clause is unsatisfied exactly when none of its variables is true in it.** -/
theorem trueCount_eq_zero_iff {c : Clause} {value : Nat → Bool} :
    c.trueCount value = 0 ↔ c.isSatisfiedBy value = false := by
  rw [trueCount, Finset.card_eq_zero, Finset.eq_empty_iff_forall_notMem, isSatisfiedBy,
    List.any_eq_false]
  constructor
  · intro h l hl htrue
    refine h l.name (mem_trueNames.2 ?_)
    rwa [← Literal.eval_eq_true_iff.1 htrue]
  · intro h name hmem
    exact h _ (mem_trueNames.1 hmem) (Literal.eval_eq_true_iff.2 rfl)

/-! ### The recorded polarities -/

/-- The first literal of a name decides; what the table held before decides before it. -/
private theorem getElem?_foldl_insertIfNew (ls : List Literal) (t : Std.TreeMap Nat Bool)
    (name : Nat) :
    (ls.foldl (fun t l => t.insertIfNew l.name l.positive) t)[name]? =
      t[name]?.or ((ls.find? (·.name = name)).map (·.positive)) := by
  induction ls generalizing t with
  | nil => simp
  | cons l ls ih =>
      rw [List.foldl_cons, ih, Std.TreeMap.getElem?_insertIfNew, List.find?_cons]
      by_cases hname : l.name = name
      · subst hname
        cases ht : t[l.name]? with
        | none =>
            have hnot : l.name ∉ t := by simpa using ht
            simp [hnot]
        | some b =>
            have hmem : l.name ∈ t := by
              rw [Std.TreeMap.mem_iff_isSome_getElem?, ht]
              rfl
            simp [hmem]
      · simp [hname]

/-- A variable is recorded with the polarity of its first literal. -/
theorem getElem?_polarities (c : Clause) (name : Nat) :
    c.polarities[name]? = (c.literals.find? (·.name = name)).map (·.positive) := by
  rw [polarities, getElem?_foldl_insertIfNew]
  simp

theorem polarities_eq_none_iff {c : Clause} {name : Nat} :
    c.polarities[name]? = none ↔ name ∉ c.names := by
  simp [getElem?_polarities, names]

/-- Each variable of a clause is recorded with some polarity. -/
theorem exists_polarity {c : Clause} {name : Nat} (h : name ∈ c.names) :
    ∃ positive, c.polarities[name]? = some positive :=
  Option.ne_none_iff_exists'.1 (mt polarities_eq_none_iff.1 (not_not_intro h))

/-- A clause that is not always true holds each variable with its recorded polarity only. -/
theorem polarities_eq_some_iff {c : Clause} (hc : c.isTautology = false) {name : Nat}
    {positive : Bool} :
    c.polarities[name]? = some positive ↔ ⟨name, positive⟩ ∈ c.literals := by
  rw [getElem?_polarities, Option.map_eq_some_iff]
  constructor
  · rintro ⟨l, hfind, rfl⟩
    have hname : l.name = name := by simpa using List.find?_some hfind
    subst hname
    exact List.mem_of_find?_eq_some hfind
  · intro hmem
    cases hfind : c.literals.find? (·.name = name) with
    | none =>
        have hne := List.find?_eq_none.1 hfind _ hmem
        simp at hne
    | some l =>
        have hname : l.name = name := by simpa using List.find?_some hfind
        subst hname
        refine ⟨l, rfl, ?_⟩
        -- a literal of the other polarity would make the clause a tautology
        by_contra hne
        have hneg : (⟨l.name, positive⟩ : Literal).negate = l := by
          obtain ⟨name, p⟩ := l
          cases p <;> cases positive <;> simp_all [Literal.negate]
        have hmem' : (⟨l.name, positive⟩ : Literal).negate ∈ c.literals := by
          rw [hneg]
          exact List.mem_of_find?_eq_some hfind
        have htaut : c.isTautology = true := (isTautology_eq_true_iff c).2 ⟨_, hmem, hmem'⟩
        rw [hc] at htaut
        cases htaut

theorem mem_trueNames_iff_polarities {c : Clause} (hc : c.isTautology = false)
    {value : Nat → Bool} {name : Nat} :
    name ∈ c.trueNames value ↔ c.polarities[name]? = some (value name) := by
  rw [mem_trueNames, polarities_eq_some_iff hc]

/-! ### One name changes its value -/

section Update

variable {c : Clause} {value : Nat → Bool} {name : Nat}

/-- Names other than the changed one stay as they are. -/
private theorem mem_trueNames_update_of_ne {other : Nat} (h : other ≠ name) (b : Bool) :
    other ∈ c.trueNames (Function.update value name b) ↔ other ∈ c.trueNames value := by
  rw [mem_trueNames, mem_trueNames, Function.update_of_ne h]

/-- A name that does not occur does not matter. -/
theorem trueCount_update_of_absent (h : c.polarities[name]? = none) (b : Bool) :
    c.trueCount (Function.update value name b) = c.trueCount value := by
  refine trueCount_congr ?_
  intro other hother
  have hne : other ≠ name := by
    rintro rfl
    exact polarities_eq_none_iff.1 h hother
  exact Function.update_of_ne hne _ _

/-- **A true literal becomes false**: there is one less. -/
theorem trueCount_update_of_true (hc : c.isTautology = false)
    (h : c.polarities[name]? = some (value name)) :
    c.trueCount (Function.update value name (!value name)) + 1 = c.trueCount value := by
  have hmem : name ∈ c.trueNames value := (mem_trueNames_iff_polarities hc).2 h
  have herase : c.trueNames (Function.update value name (!value name)) =
      (c.trueNames value).erase name := by
    ext other
    rw [Finset.mem_erase]
    by_cases hother : other = name
    · subst hother
      rw [mem_trueNames_iff_polarities hc, Function.update_self, h]
      simp
    · simp [mem_trueNames_update_of_ne hother, hother]
  rw [trueCount, trueCount, herase, Finset.card_erase_add_one hmem]

/-- **A false literal becomes true**: there is one more. -/
theorem trueCount_update_of_false (hc : c.isTautology = false)
    (h : c.polarities[name]? = some (!value name)) :
    c.trueCount (Function.update value name (!value name)) = c.trueCount value + 1 := by
  -- the change back is the change of a true literal
  have hself : c.polarities[name]? = some (Function.update value name (!value name) name) := by
    rw [Function.update_self, h]
  have hback := trueCount_update_of_true hc hself
  rw [Function.update_self, Function.update_idem, Bool.not_not, Function.update_eq_self] at hback
  exact hback.symm

end Update

/-! ### The width -/

theorem width_eq_card (c : Clause) : c.width = c.names.toFinset.card := by
  have hkeys : c.polarities.keys.toFinset = c.names.toFinset := by
    ext name
    rw [List.mem_toFinset, List.mem_toFinset, Std.TreeMap.mem_keys,
      Std.TreeMap.mem_iff_isSome_getElem?, ← not_iff_not, ← polarities_eq_none_iff]
    simp
  rw [width, ← Std.TreeMap.length_keys, ← hkeys,
    List.toFinset_card_of_nodup Std.TreeMap.nodup_keys]

/-- **The width of a clause bounds the number of its true literals.** -/
theorem trueCount_le_width (c : Clause) (value : Nat → Bool) : c.trueCount value ≤ c.width := by
  rw [width_eq_card]
  exact Finset.card_le_card (trueNames_subset_names c value)

/-- **What flipping a name does to a clause**: the number of true literals goes up by one where the
name occurs with a false literal, down by one where it occurs with a true one, and on the way it
stays between zero and the width. -/
theorem trueCount_flip {c : Clause} (hc : c.isTautology = false) (value : Nat → Bool)
    (name : Nat) :
    c.trueCount value + (if c.polarities[name]?.any (· != value name) then 1 else 0) ≤ c.width ∧
      (if c.polarities[name]?.any (· == value name) then 1 else 0) ≤ c.trueCount value ∧
      c.trueCount (Function.update value name (!value name)) =
        c.trueCount value + (if c.polarities[name]?.any (· != value name) then 1 else 0) -
          (if c.polarities[name]?.any (· == value name) then 1 else 0) := by
  have hwidth := trueCount_le_width c (Function.update value name (!value name))
  have hwidth' := trueCount_le_width c value
  cases hp : c.polarities[name]? with
  | none =>
      rw [trueCount_update_of_absent hp]
      simpa using hwidth'
  | some positive =>
      by_cases hpos : positive = value name
      · subst hpos
        have hless := trueCount_update_of_true hc hp
        simp only [Option.any_some, bne_self_eq_false, beq_self_eq_true, if_true,
          Bool.false_eq_true, if_false]
        omega
      · have hnot : positive = !value name := Bool.eq_not_of_ne hpos
        subst hnot
        have hmore := trueCount_update_of_false hc hp
        simp only [Option.any_some, Bool.not_beq_self, Bool.not_bne_self, if_true,
          Bool.false_eq_true, if_false]
        omega

end Clause

end WeightedSat
