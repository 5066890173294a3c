import WeightedSat.Proofs.Document.Reread

/-!
**Whole weights are read back from documents.**

A whole number up to a tenth of `2 ^ 53` is written with all its digits, a point and a zero.  The
significand that is read, ten times the number, still needs no rounding, and neither does the
quotient by ten.

Main results:

* `WeightedSat.Document.exists_shortest_eq` — the shortest decimal of a whole number is whole;
* `WeightedSat.Document.reread?_floatOfNat` — **whole weights are read back**.
-/

set_option relaxedAutoImplicit false
set_option autoImplicit false

namespace WeightedSat.Document

open Decimal Binary64

/-! ### Whole numbers -/

theorem denotes_floatOfNat {n : ℕ} (h : n ≤ 2 ^ 53) : Denotes (floatOfNat n) n := by
  have hdenotes := denotes_toFloat (m := n) (k := 0) (by rwa [pow_zero, Nat.mul_one])
  rwa [pow_zero, Nat.mul_one] at hdenotes

/-- A whole decimal rounds to the floating-point number of a whole number only where it is that
number. -/
theorem toFloat_eq_floatOfNat_iff {m k n : ℕ} (hm : m * 10 ^ k ≤ 2 ^ 53) (hn : 0 < n)
    (h : n ≤ 2 ^ 53) : toFloat ⟨m, k⟩ = floatOfNat n ↔ m * 10 ^ k = n := by
  have hdenotes := denotes_toFloat hm
  constructor
  · intro heq
    have hvalue := hdenotes.value_eq
    rw [heq, (denotes_floatOfNat h).value_eq] at hvalue
    exact_mod_cast hvalue.symm
  · intro heq
    rw [heq] at hdenotes
    exact hdenotes.eq_of_pos (denotes_floatOfNat h) (Nat.cast_pos.2 hn)

/-- The expansion of a whole number ends in zeros. -/
theorem exists_ofBinary_eq {m n : ℕ} {q : ℤ} (h : (m : ℚ) * (2 : ℚ) ^ q = n) :
    ∃ j : ℕ, ofBinary m q = ⟨n * 10 ^ j, -j⟩ := by
  rw [ofBinary]
  split
  · rename_i hq
    obtain ⟨k, rfl⟩ := Int.eq_ofNat_of_zero_le hq
    have hn : m * 2 ^ k = n := by
      rw [zpow_natCast] at h
      exact_mod_cast h
    refine ⟨0, ?_⟩
    simpa using hn
  · rename_i hq
    obtain ⟨j, rfl⟩ : ∃ j : ℕ, q = -j := ⟨(-q).toNat, by omega⟩
    have hj : (- -(j : ℤ)).toNat = j := by omega
    have hm : m = n * 2 ^ j := by
      refine eq_mul_two_pow (e := -j) ?_
      rw [h, neg_add_cancel, zpow_zero, mul_one]
    refine ⟨j, ?_⟩
    rw [hj, hm, show (10 : ℕ) = 2 * 5 by rfl, Nat.mul_pow, ← Nat.mul_assoc]
    rfl

/-- The decimal `n * 10 ^ j` has `j` digits more than `n`. -/
theorem size_mul_pow {n : ℕ} (hn : 0 < n) (j : ℕ) (e : ℤ) :
    (Decimal.mk (n * 10 ^ j) e).size = (Text.digits n).length + j := by
  obtain ⟨k, hk⟩ := Nat.exists_eq_succ_of_ne_zero (List.length_pos_iff.2 (Text.digits_ne_nil n)).ne'
  obtain ⟨hlow, hhigh⟩ := (Text.length_digits_eq_iff hn).1 hk
  have hsize : (Text.digits (n * 10 ^ j)).length = k + j + 1 := by
    refine (Text.length_digits_eq_iff (by positivity)).2 ⟨?_, ?_⟩
    · rw [Nat.pow_add]
      exact Nat.mul_le_mul_right _ hlow
    · rw [Nat.add_right_comm, Nat.pow_add]
      exact Nat.mul_lt_mul_of_pos_right hhigh (by positivity)
  rw [size, hsize, hk]
  omega

/-- Dropping zeros at the end of a decimal changes nothing. -/
theorem exists_trim_eq (d : Decimal) :
    ∃ k : ℕ, d.trim = ⟨d.digits / 10 ^ k, d.exponent + k⟩ ∧
      d.digits / 10 ^ k * 10 ^ k = d.digits := by
  refine ⟨d.trailingZeros, rfl, Nat.div_mul_cancel ?_⟩
  have hzeros : (Text.digits d.digits).reverse.takeWhile (· = '0') =
      List.replicate d.trailingZeros '0' := by
    refine List.eq_replicate_iff.2 ⟨rfl, fun c hc => ?_⟩
    simpa using List.mem_takeWhile_imp hc
  have hsplit := (Text.digits d.digits).reverse.takeWhile_append_dropWhile (p := (· = '0'))
  rw [hzeros, ← List.reverse_inj, List.reverse_reverse, List.reverse_append,
    List.reverse_replicate] at hsplit
  rw [← Text.natValue_digits d.digits, ← hsplit, Text.natValue_append_zeros]
  exact Nat.dvd_mul_left _ _

/-! ### The shortest decimal of a whole number -/

section Shortest

variable {n : ℕ} (hn : 0 < n) (h : 10 * n ≤ 2 ^ 53)

include hn h

/-- The neighbour above a whole number is another number. -/
theorem toFloat_trim_ne {k i : ℕ} (hlength : (Text.digits n).length = k + 1 + i) :
    (Decimal.mk (n / 10 ^ i + 1) i).trim.toFloat ≠ floatOfNat n := by
  rw [Nat.add_right_comm] at hlength
  obtain ⟨hlow, hhigh⟩ := (Text.length_digits_eq_iff hn).1 hlength
  have habove : n < (n / 10 ^ i + 1) * 10 ^ i := by
    rw [Nat.add_one_mul]
    exact Nat.lt_div_mul_add (by positivity)
  have hdigits : n / 10 ^ i + 1 ≤ 10 ^ (k + 1) := by
    refine Nat.div_lt_of_lt_mul ?_
    rwa [← Nat.pow_add, Nat.add_comm, Nat.add_right_comm]
  have hbound : (n / 10 ^ i + 1) * 10 ^ i ≤ 2 ^ 53 := by
    calc (n / 10 ^ i + 1) * 10 ^ i ≤ 10 ^ (k + 1) * 10 ^ i := Nat.mul_le_mul_right _ hdigits
      _ = 10 * 10 ^ (k + i) := by ring
      _ ≤ 10 * n := Nat.mul_le_mul_left 10 hlow
      _ ≤ 2 ^ 53 := h
  obtain ⟨t, htrim, hvalue⟩ := exists_trim_eq ⟨n / 10 ^ i + 1, i⟩
  dsimp only at htrim hvalue
  have hproduct : (n / 10 ^ i + 1) / 10 ^ t * 10 ^ (i + t) = (n / 10 ^ i + 1) * 10 ^ i := by
    rw [Nat.add_comm i, Nat.pow_add, ← Nat.mul_assoc, hvalue]
  rw [htrim, ← Nat.cast_add, Ne, toFloat_eq_floatOfNat_iff (by rwa [hproduct]) hn (by omega),
    hproduct]
  exact habove.ne'

/-- What is found with fewer digits than a whole number has: zeros at its end may be dropped. -/
theorem reading?_whole {k i : ℕ} (hlength : (Text.digits n).length = k + 1 + i) (tie : Tie)
    (j : ℕ) :
    reading? tie (floatOfNat n) ⟨n * 10 ^ j, -j⟩ (k + 1) =
      if n / 10 ^ i * 10 ^ i = n then some ⟨n / 10 ^ i, i⟩ else none := by
  have hcut : (Decimal.mk (n * 10 ^ j) (-j)).size - (k + 1) = i + j := by
    rw [size_mul_pow hn]
    omega
  have hdigits : n * 10 ^ j / Nat.pow 10 (i + j) = n / 10 ^ i := by
    change n * 10 ^ j / 10 ^ (i + j) = n / 10 ^ i
    rw [Nat.pow_add]
    exact Nat.mul_div_mul_right _ _ (by positivity)
  have hexponent : -(j : ℤ) + (i + j : ℕ) = i := by omega
  have hle : n / 10 ^ i * 10 ^ i ≤ n := Nat.div_mul_le_self _ _
  have hlow : toFloat ⟨n / 10 ^ i, i⟩ = floatOfNat n ↔ n / 10 ^ i * 10 ^ i = n :=
    toFloat_eq_floatOfNat_iff (by omega) hn (by omega)
  have hhigh := toFloat_trim_ne hn h hlength
  simp only [reading?, hcut, hdigits, hexponent, hlow, hhigh, false_and, if_false]

/-- **The shortest decimal of a whole number is whole.** -/
theorem exists_shortest_eq (tie : Tie) (j : ℕ) :
    ∃ a i : ℕ, shortest tie (floatOfNat n) ⟨n * 10 ^ j, -j⟩ = ⟨a, i⟩ ∧ a * 10 ^ i = n := by
  obtain ⟨L, hL⟩ := Nat.exists_eq_succ_of_ne_zero
    (List.length_pos_iff.2 (Text.digits_ne_nil n)).ne'
  obtain ⟨hlow, -⟩ := (Text.length_digits_eq_iff hn).1 hL
  have hfew : L ≤ 16 := by
    refine (Nat.pow_le_pow_iff_right (by decide : 1 < 10)).1 ?_
    omega
  -- nothing is sought beyond all digits, which are found
  have hlast : reading? tie (floatOfNat n) ⟨n * 10 ^ j, -j⟩ (L + 1) = some ⟨n, 0⟩ := by
    rw [reading?_whole hn h (show (Text.digits n).length = L + 1 + 0 from hL)]
    simp
  obtain ⟨e, he⟩ : ∃ e, (List.range' 1 (L + 1)).findSome?
      (reading? tie (floatOfNat n) ⟨n * 10 ^ j, -j⟩) = some e := by
    refine Option.isSome_iff_exists.1 (List.findSome?_isSome_iff.2 ⟨L + 1, ?_, ?_⟩)
    · exact List.mem_range'_1.2 (by omega)
    · rw [hlast]
      rfl
  have hshortest : shortest tie (floatOfNat n) ⟨n * 10 ^ j, -j⟩ = e := by
    rw [shortest, show 17 = L + 1 + (16 - L) by omega, ← List.range'_append_1,
      List.findSome?_append, he]
    rfl
  -- what is found has some of these digits, and only zeros are left out
  obtain ⟨k, hk, hread⟩ := List.exists_of_findSome?_eq_some he
  have hrange := List.mem_range'_1.1 hk
  obtain ⟨k, rfl⟩ := Nat.exists_eq_succ_of_ne_zero (by omega : k ≠ 0)
  have hlength : (Text.digits n).length = k + 1 + (L - k) := by omega
  rw [reading?_whole hn h hlength] at hread
  split at hread
  · rename_i heq
    cases hread
    exact ⟨_, _, hshortest, heq⟩
  · cases hread

/-- A whole number is written with all its digits, a point and a zero. -/
theorem exists_write_eq : ∃ ds, numberLayout.write (floatOfNat n) = ds ++ ['.', '0'] ∧
    IsWhole ds ∧ Text.natValue ds = n := by
  have hdenotes := denotes_floatOfNat (show n ≤ 2 ^ 53 by omega)
  obtain ⟨m, q, hm, hunpack, -, hvalue⟩ := hdenotes.unpack.exists_positive (Nat.cast_pos.2 hn)
  obtain ⟨j, hexpansion⟩ := exists_ofBinary_eq hvalue
  obtain ⟨a, i, hshortest, ha⟩ := exists_shortest_eq hn h numberLayout.tie j
  have hpos : 0 < a := by
    rw [Nat.pos_iff_ne_zero]
    rintro rfl
    omega
  have hsize : (Decimal.mk n 0).size = (Text.digits a).length + i := by
    rw [← ha, size_mul_pow hpos]
  have hfew : (Text.digits n).length ≤ 16 :=
    (Nat.length_toDigits_le_iff (by decide) (by decide)).2 (by omega)
  have hpositional : numberLayout.positional (i + (Decimal.mk a i).size - 1) = true := by
    change (Text.digits n).length = _ at hsize
    rw [size]
    simp only [numberLayout, Bool.and_eq_true, decide_eq_true_iff]
    omega
  refine ⟨Text.digits a ++ List.replicate i '0', ?_, ?_, ?_⟩
  · rw [Layout.write, hunpack]
    simp only [hexpansion, hshortest, Layout.writeDecimal, hpositional, if_true,
      Layout.writePositional, Int.natCast_nonneg, Int.toNat_natCast]
    rfl
  · refine (isWhole_digits a).append (Text.head?_digits_ne hpos.ne') ?_
    exact fun _ => isDigit_of_mem_replicate
  · rw [Text.natValue_append_zeros, Text.natValue_digits, ha]

end Shortest

/-! ### Reading it -/

/-- What is read of a whole number with a point and a zero. -/
theorem number?_point_zero {ds : List Char} {n : ℕ} (hds : Text.natValue ds = n)
    (h : 10 * n ≤ wordLimit) :
    number? false ds ['.', '0'] [] = some (.float (floatOfNat (10 * n) / powerOfTen 1)) := by
  have hwhole : gather wordLimit 0 ds = (n, []) := by
    rw [gather_eq (by rw [← Text.natValue_eq]; omega), ← Text.natValue_eq, hds]
  have hzero : gather wordLimit n ['0'] = (10 * n, []) := by
    have hvalue : Nat.ofDigitChars 10 ['0'] n = 10 * n := by simp [Nat.ofDigitChars]
    rw [gather_eq (by rwa [hvalue]), hvalue]
  have hscale : ∀ x, scale? x (-1) = some (x / powerOfTen 1) := by
    intro x
    rw [scale?]
    rfl
  rw [number?, hwhole]
  simp only [fractioned?, hzero]
  change scaled? false (10 * n) (-1) = _
  rw [scaled?, hscale]
  rfl

/-- **Whole weights are read back** from documents, up to a tenth of `2 ^ 53`. -/
theorem reread?_floatOfNat {n : ℕ} (h : 10 * n ≤ 2 ^ 53) :
    reread? (floatOfNat n) = some (floatOfNat n) := by
  rcases Nat.eq_zero_or_pos n with rfl | hn
  · decide +kernel
  obtain ⟨ds, hwrite, hwhole, hds⟩ := exists_write_eq hn h
  have hlimit : 10 * n ≤ wordLimit := h.trans (by decide)
  have hfraction : IsFraction ['.', '0'] := .some (by simp) (by simp [Text.isDigit])
  have hanswers := answers_readAnyNumber hwhole hfraction .none .number
  rw [number?_point_zero hds hlimit, List.append_nil, ← hwrite] at hanswers
  -- the quotient by ten is a whole number again
  have hten : Denotes (powerOfTen 1) (10 : ℕ) := denotes_toFloat (m := 1) (k := 1) (by decide)
  have hquotient : ((10 * n : ℕ) : ℚ) / (10 : ℕ) = n := by
    push_cast
    field_simp
  have hdenotes := denotes_floatOfNat (n := n) (by omega)
  have hpos : (0 : ℚ) < n := Nat.cast_pos.2 hn
  have hdiv : Denotes (floatOfNat (10 * n) / powerOfTen 1) n := by
    rw [← hquotient]
    refine (denotes_floatOfNat h).div hten (by positivity) (by norm_num) ?_
    rw [hquotient]
    exact ⟨_, hdenotes.unpack⟩
  rw [reread?_eq (hanswers.map Number.toFloat)]
  exact congrArg some (hdiv.eq_of_pos hdenotes hpos)

end WeightedSat.Document
