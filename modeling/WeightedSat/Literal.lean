import Std.Data.TreeSet.Lemmas

/-!
**Literals.**

A literal is a variable, by name, or its negation.  Outside the library it is a signed number: the
name, negative for the negation.

Main definitions:

* `WeightedSat.Literal` — a name with a polarity;
* `WeightedSat.Literal.negate`, `WeightedSat.Literal.eval` — negation and truth value;
* `WeightedSat.Literal.toSigned`, `WeightedSat.Literal.ofSigned?` — the signed form;
* `WeightedSat.Literal.rank` — the order: by name, a negation before its variable;
* `WeightedSat.Literal.sort` — literals in that order.

Main results:

* `WeightedSat.Literal.ofSigned?_eq_some_iff`, `WeightedSat.Literal.ofSigned?_eq_none_iff` — what a
  signed form stands for;
* `WeightedSat.Literal.ofSigned?_toSigned` — the signed form determines a literal whose name is not
  zero;
* `WeightedSat.Literal.rank_injective` — the order tells any two literals apart.
-/

set_option relaxedAutoImplicit false
set_option autoImplicit false

namespace WeightedSat

/-- A variable or its negation. -/
structure Literal where
  /-- The name of the variable. -/
  name : Nat
  /-- Whether the literal is the variable itself. -/
  positive : Bool
deriving DecidableEq

namespace Literal

/-- The literal with the other polarity. -/
def negate (l : Literal) : Literal :=
  ⟨l.name, !l.positive⟩

/-- The truth value of a literal when its variable has the given value. -/
def eval (l : Literal) (value : Bool) : Bool :=
  if l.positive then value else !value

/-! ### The signed form -/

/-- The signed form: the name, negative for a negation. -/
def toSigned (l : Literal) : Int :=
  if l.positive then l.name else -l.name

/-- The literal with a given signed form; zero has none, since it has no negation. -/
def ofSigned? (x : Int) : Option Literal :=
  if x = 0 then none else some ⟨x.natAbs, 0 < x⟩

theorem ofSigned?_eq_some_iff {x : Int} {l : Literal} :
    ofSigned? x = some l ↔ x ≠ 0 ∧ l = ⟨x.natAbs, 0 < x⟩ := by
  rw [ofSigned?]
  split
  · rename_i hx
    simp [hx]
  · rename_i hx
    simp [hx, eq_comm]

theorem ofSigned?_eq_none_iff {x : Int} : ofSigned? x = none ↔ x = 0 := by
  simp [ofSigned?]

theorem ofSigned?_toSigned {l : Literal} (h : l.name ≠ 0) : ofSigned? l.toSigned = some l := by
  obtain ⟨name, positive⟩ := l
  cases positive with
  | false => simp_all [toSigned, ofSigned?]
  | true =>
      simp_all [toSigned, ofSigned?]
      omega

@[simp] theorem negate_negate (l : Literal) : l.negate.negate = l := by
  simp [negate]

@[simp] theorem name_negate (l : Literal) : l.negate.name = l.name := rfl

/-- A name is new to a list of literals exactly when both of its literals are. -/
theorem name_notMem_iff {literals : List Literal} {l : Literal} :
    l.name ∉ literals.map (·.name) ↔ l ∉ literals ∧ l.negate ∉ literals := by
  constructor
  · intro h
    exact ⟨fun hl => h (List.mem_map_of_mem hl),
      fun hl => h (name_negate l ▸ List.mem_map_of_mem hl)⟩
  · rintro ⟨hl, hneg⟩ hname
    obtain ⟨k, hk, heq⟩ := List.mem_map.1 hname
    obtain ⟨name, positive⟩ := k
    obtain ⟨name', positive'⟩ := l
    simp only at heq
    subst heq
    -- two literals of one name are equal or each other's negation
    by_cases hsame : positive = positive'
    · subst hsame
      exact hl hk
    · have hpositive : positive = !positive' := by
        cases positive <;> cases positive' <;> simp_all
      subst hpositive
      exact hneg hk

theorem eval_negate (l : Literal) (value : Bool) : l.negate.eval value = !l.eval value := by
  cases l with
  | mk name positive => cases positive <;> simp [negate, eval]

/-! ### The order -/

/-- The place of a literal in the order: by name, a negation before its variable. -/
def rank (l : Literal) : Nat :=
  2 * l.name + l.positive.toNat

theorem rank_injective {a b : Literal} (h : a.rank = b.rank) : a = b := by
  obtain ⟨m, p⟩ := a
  obtain ⟨n, q⟩ := b
  cases p <;> cases q <;> simp [rank] at h ⊢ <;> omega

instance : Ord Literal where
  compare := compareOn rank

instance : Std.TransOrd Literal :=
  inferInstanceAs (Std.TransCmp (compareOn rank))

instance : Std.LawfulEqOrd Literal where
  eq_of_compare h := rank_injective (Nat.compare_eq_eq.1 h)

theorem mem_insert_iff {set : Std.TreeSet Literal} {k l : Literal} :
    k ∈ set.insert l ↔ k = l ∨ k ∈ set := by
  rw [Std.TreeSet.mem_insert, Std.LawfulEqCmp.compare_eq_iff_eq, eq_comm]

/-- Literals in ascending order. -/
def sort (literals : List Literal) : List Literal :=
  literals.mergeSort fun a b => a.rank ≤ b.rank

end Literal

end WeightedSat
