import Mathlib.Algebra.Group.Nat.Defs
import WeightedSat.Text.Blank
import WeightedSat.Text.Numeral

/-!
**Numerals are read back.**

A written number consists of digits, so it is one word, and reading it gives the number.

Main results:

* `WeightedSat.Text.isDigit_of_mem_digits` — a number is written in digits;
* `WeightedSat.Text.natValue_digits` — **the digits of a number denote it**;
* `WeightedSat.Text.readInt?_signedDigits` — **a written integer is read back**.
-/

set_option relaxedAutoImplicit false
set_option autoImplicit false

namespace WeightedSat.Text

/-! ### Digits -/

theorem isDigit_iff {c : Char} : isDigit c = true ↔ 48 ≤ c.toNat ∧ c.toNat ≤ 57 := by
  rw [isDigit, Bool.and_eq_true_iff, decide_eq_true_iff, decide_eq_true_iff]
  exact Iff.rfl

theorem isDigit_of_mem_digits {n : Nat} {c : Char} (h : c ∈ digits n) : isDigit c = true := by
  have hdigit := Nat.isDigit_of_mem_toDigits (by decide) (by decide) h
  rw [Char.isDigit, Bool.and_eq_true_iff, decide_eq_true_iff, decide_eq_true_iff] at hdigit
  exact isDigit_iff.2 hdigit

theorem digits_ne_nil (n : Nat) : digits n ≠ [] :=
  Nat.toDigits_ne_nil

/-- A digit in front. -/
theorem exists_digits_eq_cons (n : Nat) : ∃ c ds, digits n = c :: ds ∧ isDigit c = true := by
  obtain ⟨c, ds, h⟩ := List.exists_cons_of_ne_nil (digits_ne_nil n)
  exact ⟨c, ds, h, isDigit_of_mem_digits (h ▸ List.mem_cons_self)⟩

/-- Digits are found up to what follows them. -/
theorem span_isDigit_append {ds text : List Char} (hds : ∀ c ∈ ds, isDigit c = true)
    (htext : ∀ c ∈ text.head?, isDigit c = false) :
    (ds ++ text).takeWhile isDigit = ds ∧ (ds ++ text).dropWhile isDigit = text := by
  rw [List.takeWhile_append_of_pos hds, List.dropWhile_append_of_pos hds]
  cases text with
  | nil => simp
  | cons c text =>
      have hc := htext c rfl
      simp [hc]

/-- Only zero is written with a zero in front. -/
theorem head?_digits_ne {n : Nat} (hn : n ≠ 0) : (digits n).head? ≠ some '0' := by
  induction n using Nat.strongRecOn with
  | ind n ih =>
      rcases Nat.lt_or_ge n 10 with hlt | hge
      · rw [digits, Nat.toDigits_of_lt_base hlt]
        have hall : ∀ k < 10, k ≠ 0 → [Nat.digitChar k].head? ≠ some '0' := by decide
        exact hall n hlt hn
      · have hrest := ih (n / 10) (by omega) (by omega)
        obtain ⟨c, ds, hcons, -⟩ := exists_digits_eq_cons (n / 10)
        rw [hcons] at hrest
        rw [digits] at hcons
        rw [digits, Nat.toDigits_of_base_le (by decide) hge, hcons]
        exact hrest

theorem isBlank_of_isDigit {c : Char} (h : isDigit c = true) : isBlank c = false := by
  rw [isDigit_iff] at h
  rw [Bool.eq_false_iff]
  intro hblank
  obtain ⟨r, hr, hrange⟩ := (RangeTable.has_iff blankRanges c).1 hblank
  simp only [blankRanges, List.mem_cons, List.not_mem_nil, or_false] at hr
  rcases hr with rfl | rfl | rfl | rfl | rfl | rfl | rfl | rfl | rfl | rfl <;> omega

/-- A number is written with as many digits as its size tells. -/
theorem length_digits_eq_iff {n k : Nat} (hn : 0 < n) :
    (digits n).length = k + 1 ↔ 10 ^ k ≤ n ∧ n < 10 ^ (k + 1) := by
  have hupper : (digits n).length ≤ k + 1 ↔ n < 10 ^ (k + 1) :=
    Nat.length_toDigits_le_iff (by decide) k.succ_pos
  have hlower : (digits n).length ≤ k ↔ n < 10 ^ k := by
    rcases Nat.eq_zero_or_pos k with rfl | hk
    · have hlength := List.length_pos_iff.2 (digits_ne_nil n)
      rw [Nat.pow_zero]
      omega
    · exact Nat.length_toDigits_le_iff (by decide) hk
  rw [← hupper, ← Nat.not_lt, ← hlower]
  omega

/-! ### What digits denote -/

theorem le_ofDigitChars (ds : List Char) (n : Nat) : n ≤ Nat.ofDigitChars 10 ds n := by
  rw [Nat.ofDigitChars_eq_ofDigitChars_zero]
  have hpow : 1 * n ≤ 10 ^ ds.length * n := Nat.mul_le_mul_right n (Nat.one_le_pow _ 10 (by decide))
  omega

theorem natValue_eq (ds : List Char) : natValue ds = Nat.ofDigitChars 10 ds 0 := rfl

/-- **The digits of a number denote it.** -/
@[simp] theorem natValue_digits (n : Nat) : natValue (digits n) = n := by
  rw [natValue_eq, digits, Nat.ofDigitChars_ten_toDigits]

/-- Zeros at the end multiply. -/
theorem natValue_append_zeros (ds : List Char) (k : Nat) :
    natValue (ds ++ List.replicate k '0') = natValue ds * 10 ^ k := by
  rw [natValue_eq, Nat.ofDigitChars_append, Nat.ofDigitChars_replicate_zero, ← natValue_eq,
    Nat.mul_comm]

/-- Zeros in front change nothing. -/
theorem natValue_zeros_append (k : Nat) (ds : List Char) :
    natValue (List.replicate k '0' ++ ds) = natValue ds := by
  rw [natValue_eq, Nat.ofDigitChars_append, Nat.ofDigitChars_replicate_zero, Nat.mul_zero,
    ← natValue_eq]

/-! ### Reading -/

theorem readDigits?_digits (n : Nat) : readDigits? (digits n) = some n := by
  have hall : (digits n).all isDigit = true := List.all_eq_true.2 fun _ => isDigit_of_mem_digits
  rw [readDigits?, if_pos ⟨digits_ne_nil n, hall⟩, natValue_digits]

theorem readInt?_digits (n : Nat) : readInt? (digits n) = some (n : Int) := by
  have hdigits := readDigits?_digits n
  obtain ⟨c, ds, h, hc⟩ := exists_digits_eq_cons n
  rw [h] at hdigits ⊢
  -- a digit is no sign
  have hminus : c ≠ '-' := by
    rintro rfl
    cases hc
  have hplus : c ≠ '+' := by
    rintro rfl
    cases hc
  simp [readInt?, hminus, hplus, hdigits]

/-- **A written integer is read back.** -/
theorem readInt?_signedDigits (x : Int) : readInt? (signedDigits x) = some x := by
  rw [signedDigits]
  split
  · rename_i hneg
    simp only [readInt?, readDigits?_digits]
    change some (-(x.natAbs : Int)) = some x
    congr 1
    omega
  · rename_i hpos
    rw [readInt?_digits]
    congr 1
    omega

theorem readSigned?_signedDigits {bits : Nat} {x : Int} (h : FitsSigned bits x) :
    readSigned? bits (signedDigits x) = some x := by
  rw [readSigned?, readInt?_signedDigits]
  exact Option.filter_some_pos (decide_eq_true h)

/-! ### Words -/

theorem signedDigits_ne_nil (x : Int) : signedDigits x ≠ [] := by
  rw [signedDigits]
  split
  · exact List.cons_ne_nil _ _
  · exact digits_ne_nil _

theorem isBlank_of_mem_digits {n : Nat} {c : Char} (h : c ∈ digits n) : isBlank c = false :=
  isBlank_of_isDigit (isDigit_of_mem_digits h)

theorem isBlank_of_mem_signedDigits {x : Int} {c : Char} (h : c ∈ signedDigits x) :
    isBlank c = false := by
  rw [signedDigits] at h
  split at h
  · rcases List.mem_cons.1 h with rfl | h
    · decide
    · exact isBlank_of_mem_digits h
  · exact isBlank_of_mem_digits h

end WeightedSat.Text
