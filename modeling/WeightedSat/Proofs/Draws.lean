import Mathlib.Data.Stream.Defs
import Mathlib.Order.Interval.Finset.Nat
import WeightedSat.Proofs.Configured
import WeightedSat.Walk

/-!
**Drawing a number below a bound.**

A number below `n` is the high half of the product of a word with `n`, to which a second word may
add one.  This module proves that the result is below `n` whatever the two words are: the one is
added only where the low half of the product exceeds `2 ^ 32 - n`, and where the high half is
already `n - 1` the low half is at most that.  In the other direction one word is enough for every
number: the least word whose product with `n` reaches the number leaves a low half below `n`, for
which there is no second word.

A model has at most as many variables as there are names, so both directions hold of its variables,
and no product leaves sixty-four bits.

Main definitions:

* `WeightedSat.WordSource.scaled` — **the number that two words stand for**.

Main results:

* `WeightedSat.WordSource.below_fst` — what is drawn, in terms of the first two words;
* `WeightedSat.WordSource.scaled_lt` — **it is below the bound**, for every pair of words;
* `WeightedSat.WordSource.exists_scaled_eq` — **every number below the bound** is that of some word;
* `WeightedSat.Model.Configured.variableCount_le_maxName` — a model has no more variables than
  there are names;
* `WeightedSat.Model.Configured.randomVariable_lt`,
  `WeightedSat.Model.Configured.exists_randomVariable_eq` — the same of the variables of a model.
-/

set_option relaxedAutoImplicit false
set_option autoImplicit false

namespace WeightedSat

theorem wordCount_thirtyTwo : wordCount 32 = 4294967296 := rfl

theorem maxName_eq : maxName = 2147483647 := rfl

namespace WordSource

variable {σ : Type} [WordSource σ] {n i v : Nat}

/-! ### What two words stand for -/

/-- **The number that two words stand for** below a bound: the high half of the product of the first
with the bound, and one more where the second carries over from the low half. -/
def scaled (n v w : Nat) : Nat :=
  let low := v * n % wordCount 32
  v * n / wordCount 32 +
    if wordCount 32 - n < low ∧ wordCount 32 ≤ low + w * n / wordCount 32 then 1 else 0

/-- What is drawn, in terms of the first two words. -/
theorem below_fst (n : Nat) (source : σ) :
    (below n source).1 = scaled n (next source).1.toNat (next (next source).2).1.toNat := by
  simp only [below, scaled]
  split
  · rename_i hlow
    simp only [hlow, true_and]
  · rename_i hlow
    simp only [hlow, false_and, if_false, Nat.add_zero]

/-- **What two words stand for is below the bound**: there is nothing to carry where the high half
is one less than the bound. -/
theorem scaled_lt (hn : 0 < n) (hle : n ≤ wordCount 32) (hv : v < wordCount 32) (w : Nat) :
    scaled n v w < n := by
  rw [wordCount_thirtyTwo] at hle hv
  have hproduct : v * n ≤ 4294967295 * n := Nat.mul_le_mul_right n (by omega)
  have hhigh : v * n / 4294967296 ≤ n - 1 := by omega
  simp only [scaled, wordCount_thirtyTwo]
  rcases Nat.lt_or_eq_of_le hhigh with hroom | hlast
  · have hcarry : ∀ p : Prop, [Decidable p] → (if p then 1 else 0) ≤ 1 := by
      intro p _
      split <;> omega
    exact Nat.lt_of_le_of_lt (Nat.add_le_add_left (hcarry _) _) (by omega)
  · have hlow : ¬ 4294967296 - n < v * n % 4294967296 := by omega
    simp only [hlow, false_and, if_false]
    omega

/-- **Every number below a bound is that of some word**, whatever the second word is. -/
theorem exists_scaled_eq (hi : i < n) (hle : n ≤ wordCount 31) :
    ∃ v < wordCount 32, ∀ w, scaled n v w = i := by
  change n ≤ 2147483648 at hle
  -- the least word whose product reaches the number
  refine ⟨(i * 4294967296 + (n - 1)) / n, ?_, ?_⟩
  · rw [wordCount_thirtyTwo, Nat.div_lt_iff_lt_mul (by omega)]
    omega
  · intro w
    have hmod := Nat.div_add_mod' (i * 4294967296 + (n - 1)) n
    have hrest := Nat.mod_lt (i * 4294967296 + (n - 1)) (show 0 < n by omega)
    generalize (i * 4294967296 + (n - 1)) / n = v at hmod
    have hhigh : v * n / 4294967296 = i := by omega
    have hlow : ¬ 4294967296 - n < v * n % 4294967296 := by omega
    simp only [scaled, wordCount_thirtyTwo, hlow, false_and, if_false, hhigh, Nat.add_zero]

/-! ### Drawing from any source -/

/-- **What is drawn below a bound is below it**, whatever words the source delivers. -/
theorem below_lt (hn : 0 < n) (hle : n ≤ wordCount 32) (source : σ) : (below n source).1 < n := by
  rw [below_fst]
  exact scaled_lt hn hle (next source).1.toNat_lt _

/-- An endless sequence of words as a source. -/
instance : WordSource (Stream' UInt32) where
  next words := (words.head, words.tail)

/-- **Every number below a bound is drawn** from some sequence of words. -/
theorem exists_below_eq (hi : i < n) (hle : n ≤ wordCount 31) :
    ∃ words : Stream' UInt32, (below n words).1 = i := by
  obtain ⟨v, hv, hscaled⟩ := exists_scaled_eq hi hle
  refine ⟨Stream'.const (.ofNat v), ?_⟩
  have hword : (next (Stream'.const (UInt32.ofNat v))).1.toNat = v :=
    UInt32.toNat_ofNat_of_lt' hv
  rw [below_fst, hword, hscaled]

end WordSource

namespace Model

variable {m : Model} {clauses : List Clause} {σ : Type} [WordSource σ]

/-! ### The variables of a model -/

theorem Configured.mem_names_bounds (hm : m.Configured clauses) {name : Nat}
    (hname : name ∈ distinctNames (Encoding.activeClauses clauses)) :
    1 ≤ name ∧ name ≤ maxName := by
  obtain ⟨e, hbuild, -⟩ := hm.encoding?_eq
  obtain ⟨c, hc, hmem⟩ := mem_distinctNames.1 hname
  obtain ⟨l, hl, rfl⟩ := List.mem_map.1 hmem
  obtain ⟨-, -, hadmits⟩ := Encoding.admitted_of_build hbuild (Encoding.mem_activeClauses.1 hc).1
  simpa [Clause.admitsName, Nat.succ_le_iff] using hadmits l hl

/-- **A model has no more variables than there are names.** -/
theorem Configured.variableCount_le_maxName (hm : m.Configured clauses) :
    m.variableCount ≤ maxName := by
  have hsubset : (distinctNames (Encoding.activeClauses clauses)).toFinset ⊆
      Finset.Icc 1 maxName := by
    intro name hname
    exact Finset.mem_Icc.2 (hm.mem_names_bounds (List.mem_toFinset.1 hname))
  calc m.variableCount = (distinctNames (Encoding.activeClauses clauses)).length :=
        hm.encodes.variableCount_eq
    _ = (distinctNames (Encoding.activeClauses clauses)).toFinset.card :=
        (List.toFinset_card_of_nodup (nodup_distinctNames _)).symm
    _ ≤ (Finset.Icc 1 maxName).card := Finset.card_le_card hsubset
    _ = maxName := by rw [Nat.card_Icc, Nat.add_sub_cancel]

/-- The product of a word with the number of variables fits sixty-four bits. -/
theorem Configured.mul_variableCount_lt (hm : m.Configured clauses) (v : UInt32) :
    v.toNat * m.variableCount < wordCount 64 := by
  have hle := hm.variableCount_le_maxName
  rw [maxName_eq] at hle
  calc v.toNat * m.variableCount < 4294967296 * 4294967296 :=
        Nat.mul_lt_mul'' v.toNat_lt (by omega)
    _ = wordCount 64 := rfl

/-- **What is drawn for a flip is a variable**, whatever words the source delivers. -/
theorem Configured.randomVariable_lt (hm : m.Configured clauses) (hn : 0 < m.variableCount)
    (source : σ) : (m.randomVariable source).1 < m.variableCount := by
  have hle := hm.variableCount_le_maxName
  rw [maxName_eq] at hle
  rw [randomVariable, if_neg (Nat.ne_of_gt hn)]
  exact WordSource.below_lt hn (by rw [wordCount_thirtyTwo]; omega) source

/-- **Every variable is drawn** from some sequence of words. -/
theorem Configured.exists_randomVariable_eq (hm : m.Configured clauses) {i : Nat}
    (hi : i < m.variableCount) : ∃ words : Stream' UInt32, (m.randomVariable words).1 = i := by
  have hle := hm.variableCount_le_maxName
  obtain ⟨words, hwords⟩ := WordSource.exists_below_eq hi (hle.trans (Nat.sub_le _ 1))
  exact ⟨words, by rwa [randomVariable, if_neg (Nat.ne_zero_of_lt hi)]⟩

end Model

end WeightedSat
