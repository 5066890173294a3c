import WeightedSat.Proofs.Binary64.Value

/-!
**Sums and quotients that need no rounding.**

A sum of floating-point numbers is the exact sum, rounded.  Where the exact sum is itself the number
of a word, rounding leaves it alone: shifting the significand to the exponent of that word drops
zeros only.  Among the numbers of words are all integers up to `2 ^ 53`, so adding and subtracting
integers is exact as long as the results stay within that bound.  Likewise a quotient that is the
number of a word leaves no remainder.

Main definitions:

* `WeightedSat.Binary64.Denotes` — a finite word and the number it stands for;
* `WeightedSat.Binary64.Representable` — the numbers of finite words.

Main results:

* `WeightedSat.Binary64.round_exact` — rounding leaves the number of a word alone;
* `WeightedSat.Binary64.representable_int` — **integers up to `2 ^ 53` are numbers of words**;
* `WeightedSat.Binary64.unpackedAdd_cases` — how a sum is computed;
* `WeightedSat.Binary64.Denotes.add`, `WeightedSat.Binary64.Denotes.sub` — **a representable sum or
  difference is exact**;
* `WeightedSat.Binary64.Denotes.div` — **a representable quotient is exact**.
-/

set_option relaxedAutoImplicit false
set_option autoImplicit false

namespace WeightedSat.Binary64

open Float.Model Float.Model.UnpackedFloat

/-! ### Shifting -/

theorem totalExponent_mul_two_pow {m : ℕ} (hm : 0 < m) (k : ℕ) (e : ℤ) :
    totalExponent (m * 2 ^ k) e = totalExponent m (e + k) := by
  have hlog : (m * 2 ^ k).log2 = m.log2 + k := by
    induction k with
    | zero => rw [pow_zero, Nat.mul_one, Nat.add_zero]
    | succ k ih =>
        have hne : m * 2 ^ k ≠ 0 := (Nat.mul_pos hm (Nat.two_pow_pos k)).ne'
        rw [show m * 2 ^ (k + 1) = 2 * (m * 2 ^ k) by ring, Nat.log2_two_mul hne, ih]
        rfl
  rw [totalExponent, totalExponent, hlog]
  push_cast
  ring

/-- Shifting zeros out of a significand leaves no residue. -/
theorem shiftRight_exact (m k : ℕ) :
    (⟨m * 2 ^ k, false, false⟩ : ExtendedMantissa) >>> k = ⟨m, false, false⟩ := by
  change k.repeat ExtendedMantissa.shiftRightOne ⟨m * 2 ^ k, false, false⟩ = ⟨m, false, false⟩
  induction k generalizing m with
  | zero => rw [pow_zero, Nat.mul_one, Nat.repeat]
  | succ k ih =>
      rw [show m * 2 ^ (k + 1) = m * 2 * 2 ^ k by ring, Nat.repeat, ih]
      simp [ExtendedMantissa.shiftRightOne]

/-- Zeros below a canonical pair are shifted out on the way to its exponent. -/
theorem Canonical.shiftToTargetExponent {m k : ℕ} {e : ℤ} (h : Canonical m (e + k)) :
    UnpackedFloat.shiftToTargetExponent Format.binary64 (m * 2 ^ k) e .exact =
      (⟨m, false, false⟩, e + k) := by
  have hamount : (e + k - e).toNat = k := by omega
  rw [UnpackedFloat.shiftToTargetExponent, totalExponent_mul_two_pow h.pos, h.targetExponent,
    shiftToExponent, hamount]
  exact Prod.ext (shiftRight_exact m k) rfl

/-! ### Rounding -/

theorem Canonical.roundWithAccuracy {s : Sign} {m k : ℕ} {e : ℤ} (h : Canonical m (e + k)) :
    UnpackedFloat.roundWithAccuracy Format.binary64 s (m * 2 ^ k) e .exact =
      .finite s m (e + k) h.pos := by
  have hrounded : (⟨m, false, false⟩ : ExtendedMantissa).roundedMantissa = m := rfl
  -- the second shift of the definition starts at the exponent it aims at
  have hagain : UnpackedFloat.shiftToTargetExponent Format.binary64 m (e + k) .exact =
      (⟨m, false, false⟩, e + k) := by
    have h0 : Canonical m (e + k + (0 : ℕ)) := by rwa [Nat.cast_zero, add_zero]
    have hshift := h0.shiftToTargetExponent
    rwa [pow_zero, Nat.mul_one, Nat.cast_zero, add_zero] at hshift
  simp only [UnpackedFloat.roundWithAccuracy, h.shiftToTargetExponent, hrounded, hagain]
  rw [dif_neg h.pos.ne']

theorem natCast_two_pow (k : ℕ) : ((2 ^ k : ℕ) : ℚ) = (2 : ℚ) ^ (k : ℤ) := by
  rw [Nat.cast_pow, zpow_natCast]
  rfl

/-- Two ways to write a number: the one with the smaller exponent has zeros at its end. -/
theorem eq_mul_two_pow {m n k : ℕ} {e : ℤ}
    (h : (m : ℚ) * (2 : ℚ) ^ e = n * (2 : ℚ) ^ (e + k)) : m = n * 2 ^ k := by
  have hpow : (2 : ℚ) ^ e ≠ 0 := by positivity
  rw [zpow_add₀ (by norm_num), mul_comm ((2 : ℚ) ^ e), ← mul_assoc] at h
  have hcast := mul_right_cancel₀ hpow h
  rw [← natCast_two_pow] at hcast
  exact_mod_cast hcast

/-- **Rounding leaves the number of a word alone.** -/
theorem round_exact {s : Sign} {m n : ℕ} {e f : ℤ} (hn : Canonical n f)
    (h : (m : ℚ) * (2 : ℚ) ^ e = n * (2 : ℚ) ^ f) :
    UnpackedFloat.round Format.binary64 s m e = .finite s n f hn.pos := by
  rcases le_total e f with hef | hfe
  -- the significand ends in the zeros that shifting drops
  · obtain ⟨k, rfl⟩ := Int.le.dest hef
    obtain rfl := eq_mul_two_pow h
    have hamount : (e - (e + k)).toNat = 0 := by omega
    simp only [UnpackedFloat.round, totalExponent_mul_two_pow hn.pos, hn.targetExponent,
      decreaseExponent, hamount]
    rw [Nat.shiftLeft_zero, Nat.cast_zero, sub_zero, hn.roundWithAccuracy]
  -- zeros are appended first, and then there is nothing to shift
  · obtain ⟨k, rfl⟩ := Int.le.dest hfe
    obtain rfl := eq_mul_two_pow h.symm
    have hm : 0 < m := Nat.pos_of_mul_pos_right hn.pos
    have hamount : (f + k - f).toNat = k := by omega
    have hn0 : Canonical (m * 2 ^ k) (f + (0 : ℕ)) := by rwa [Nat.cast_zero, add_zero]
    have hround := hn0.roundWithAccuracy (s := s)
    simp only [UnpackedFloat.round, ← totalExponent_mul_two_pow hm, hn.targetExponent,
      decreaseExponent, hamount]
    rw [Nat.shiftLeft_eq, add_sub_cancel_right]
    simpa only [pow_zero, Nat.mul_one, Nat.cast_zero, add_zero] using hround

/-! ### The numbers of words -/

/-- A finite number that a word can hold, and what it stands for. -/
structure UnpackedDenotes (u : UnpackedFloat) (q : ℚ) : Prop where
  fits : Fits u
  isFinite : u.isFinite = true
  value_eq : unpackedValue u = q

/-- **The numbers of finite words.** -/
def Representable (q : ℚ) : Prop := ∃ u, UnpackedDenotes u q

/-- Rounding gives the word of a number that has one. -/
theorem UnpackedDenotes.round_eq {u : UnpackedFloat} {s : Sign} {m : ℕ} {e : ℤ} (hm : 0 < m)
    (h : UnpackedDenotes u (unpackedValue (.finite s m e hm))) :
    UnpackedFloat.round Format.binary64 s m e = u := by
  obtain ⟨hfits, hfinite, hvalue⟩ := h
  have hpos := magnitude_pos hm e
  cases u with
  | notANumber => cases hfinite
  | infinity t => cases hfinite
  | zero t =>
      rw [unpackedValue_zero] at hvalue
      cases s with
      | positive =>
          rw [unpackedValue_positive] at hvalue
          exact absurd hvalue hpos.ne
      | negative =>
          rw [unpackedValue_negative] at hvalue
          exact absurd hvalue (neg_neg_of_pos hpos).ne'
  | finite t n f hn =>
      -- two numbers of different signs are not equal, so the signs agree
      have hpos' := magnitude_pos hn f
      cases s with
      | positive =>
          rw [unpackedValue_positive] at hvalue
          cases t with
          | positive =>
              rw [unpackedValue_positive] at hvalue
              exact round_exact hfits.1 hvalue.symm
          | negative =>
              rw [unpackedValue_negative] at hvalue
              linarith
      | negative =>
          rw [unpackedValue_negative] at hvalue
          cases t with
          | positive =>
              rw [unpackedValue_positive] at hvalue
              linarith
          | negative =>
              rw [unpackedValue_negative] at hvalue
              exact round_exact hfits.1 (neg_injective hvalue).symm

/-- A signed significand is rounded by its size, unless it is zero. -/
theorem normalize_cases (n e : ℤ) (zeroSign : Sign) :
    n = 0 ∧ UnpackedFloat.normalize Format.binary64 n e zeroSign = .zero zeroSign ∨
      ∃ (s : Sign) (m : ℕ), 0 < m ∧ n = s.apply m ∧
        UnpackedFloat.normalize Format.binary64 n e zeroSign =
          UnpackedFloat.round Format.binary64 s m e := by
  rw [UnpackedFloat.normalize]
  rcases lt_trichotomy n 0 with hn | rfl | hn
  · rw [compare_lt_iff_lt.2 hn]
    exact Or.inr ⟨.negative, (-n).toNat, by omega, by simp only [Sign.apply]; omega, rfl⟩
  · rw [compare_eq_iff_eq.2 rfl]
    exact Or.inl ⟨rfl, rfl⟩
  · rw [compare_gt_iff_gt.2 hn]
    exact Or.inr ⟨.positive, n.toNat, by omega, by simp only [Sign.apply]; omega, rfl⟩

/-- A signed significand, rounded, where its number is that of a word. -/
theorem normalize_exact {n e : ℤ} {zeroSign : Sign} (h : Representable (n * (2 : ℚ) ^ e)) :
    UnpackedDenotes (UnpackedFloat.normalize Format.binary64 n e zeroSign) (n * (2 : ℚ) ^ e) := by
  obtain ⟨u, hu⟩ := h
  rcases normalize_cases n e zeroSign with ⟨rfl, hzero⟩ | ⟨s, m, hm, rfl, hround⟩
  · rw [hzero]
    exact ⟨trivial, rfl, by rw [unpackedValue_zero, Int.cast_zero, zero_mul]⟩
  · rw [hround]
    rwa [UnpackedDenotes.round_eq hm hu]

/-- A number of at most fifty-three bits, shifted until its leading bit is in place. -/
theorem exists_canonical {m : ℕ} (hpos : 0 < m) (hle : m ≤ 2 ^ 53) :
    ∃ n f, Canonical n f ∧ f ≤ 971 ∧ (n : ℚ) * (2 : ℚ) ^ f = m := by
  rcases hle.lt_or_eq with hlt | rfl
  · have hlog : m.log2 < 53 := (Nat.log2_lt hpos.ne').2 hlt
    obtain ⟨k, hk⟩ : ∃ k, m.log2 + k = 52 := ⟨52 - m.log2, by omega⟩
    obtain ⟨hlow, hhigh⟩ := (Nat.log2_eq_iff hpos.ne').1 rfl
    have hpow : 0 < 2 ^ k := Nat.two_pow_pos k
    refine ⟨m * 2 ^ k, -k, ⟨Nat.mul_pos hpos hpow, ?_, by omega, Or.inl ?_⟩, by omega, ?_⟩
    · calc m * 2 ^ k < 2 ^ (m.log2 + 1) * 2 ^ k := Nat.mul_lt_mul_of_pos_right hhigh hpow
        _ = 2 ^ 53 := by rw [← pow_add, show m.log2 + 1 + k = 53 by omega]
    · calc 2 ^ 52 = 2 ^ m.log2 * 2 ^ k := by rw [← pow_add, hk]
        _ ≤ m * 2 ^ k := Nat.mul_le_mul_right _ hlow
    · rw [Nat.cast_mul, natCast_two_pow, mul_assoc, ← zpow_add₀ (by norm_num), add_neg_cancel,
        zpow_zero, mul_one]
  · exact ⟨2 ^ 52, 1, ⟨by decide, by decide, by decide, Or.inl le_rfl⟩, by decide, by norm_num⟩

/-- **Integers up to `2 ^ 53` are numbers of words.** -/
theorem representable_int {n : ℤ} (h : |n| ≤ 2 ^ 53) : Representable n := by
  obtain ⟨m, hm⟩ := Int.eq_nat_or_neg n
  rcases Nat.eq_zero_or_pos m with rfl | hpos
  · have hn : n = 0 := by omega
    exact ⟨.zero .positive, trivial, rfl, by rw [hn, unpackedValue_zero, Int.cast_zero]⟩
  · have hle : m ≤ 2 ^ 53 := by
      have habs := abs_le.1 h
      omega
    obtain ⟨k, f, hk, hf, hvalue⟩ := exists_canonical hpos hle
    rcases hm with rfl | rfl
    · refine ⟨.finite .positive k f hk.pos, ⟨hk, hf⟩, rfl, ?_⟩
      rw [unpackedValue_positive, hvalue, Int.cast_natCast]
    · refine ⟨.finite .negative k f hk.pos, ⟨hk, hf⟩, rfl, ?_⟩
      rw [unpackedValue_negative, hvalue, Int.cast_neg, Int.cast_natCast]

/-! ### Sums and differences -/

/-- Written with a smaller exponent, a number stays the same. -/
theorem decreaseExponent_value {s : Sign} {m : ℕ} {e f : ℤ} (hm : 0 < m) (h : f ≤ e) :
    (s.apply (decreaseExponent m e f).1 : ℤ) * (2 : ℚ) ^ f = unpackedValue (.finite s m e hm) := by
  obtain ⟨k, rfl⟩ := Int.le.dest h
  have hamount : (f + k - f).toNat = k := by omega
  have hshift : ((m <<< k : ℕ) : ℚ) * (2 : ℚ) ^ f = m * (2 : ℚ) ^ (f + k) := by
    rw [Nat.shiftLeft_eq, Nat.cast_mul, natCast_two_pow, zpow_add₀ (by norm_num)]
    ring
  simp only [decreaseExponent, hamount]
  cases s with
  | positive => rw [unpackedValue_positive, ← hshift, Sign.apply, Int.cast_natCast]
  | negative =>
      rw [unpackedValue_negative, ← hshift, Sign.apply, Int.cast_neg, Int.cast_natCast, neg_mul]

/-- **How a sum is computed**: it is one of the two where the other is zero; else both are written
with the smaller exponent, added as integers and rounded. -/
theorem unpackedAdd_cases {u v : UnpackedFloat} (hfu : Fits u) (hfv : Fits v)
    (hfiniteu : u.isFinite = true) (hfinitev : v.isFinite = true) :
    UnpackedDenotes (UnpackedFloat.add Format.binary64 u v)
        (unpackedValue u + unpackedValue v) ∨
      ∃ (n e : ℤ) (zeroSign : Sign), UnpackedFloat.add Format.binary64 u v =
          UnpackedFloat.normalize Format.binary64 n e zeroSign ∧
        (n : ℚ) * (2 : ℚ) ^ e = unpackedValue u + unpackedValue v := by
  cases u with
  | notANumber => cases hfiniteu
  | infinity s => cases hfiniteu
  | zero s =>
      rw [unpackedValue_zero, zero_add]
      cases v with
      | notANumber => cases hfinitev
      | infinity t => cases hfinitev
      | zero t =>
          rw [unpackedValue_zero]
          cases s <;> cases t <;> exact Or.inl ⟨trivial, rfl, rfl⟩
      | finite t n f hn => exact Or.inl ⟨hfv, rfl, rfl⟩
  | finite s m e hm =>
      cases v with
      | notANumber => cases hfinitev
      | infinity t => cases hfinitev
      | zero t =>
          rw [unpackedValue_zero, add_zero]
          exact Or.inl ⟨hfu, rfl, rfl⟩
      | finite t n f hn =>
          have hsum : ((s.apply (decreaseExponent m e (min e f)).1 +
              t.apply (decreaseExponent n f (min e f)).1 : ℤ) : ℚ) * (2 : ℚ) ^ min e f =
              unpackedValue (.finite s m e hm) + unpackedValue (.finite t n f hn) := by
            rw [Int.cast_add, add_mul, decreaseExponent_value hm (min_le_left e f),
              decreaseExponent_value hn (min_le_right e f)]
          exact Or.inr ⟨_, _, _, rfl, hsum⟩

/-- **A representable sum is exact.** -/
theorem UnpackedDenotes.add {u v : UnpackedFloat} {p q : ℚ} (hu : UnpackedDenotes u p)
    (hv : UnpackedDenotes v q) (h : Representable (p + q)) :
    UnpackedDenotes (UnpackedFloat.add Format.binary64 u v) (p + q) := by
  obtain ⟨hfu, hfiniteu, rfl⟩ := hu
  obtain ⟨hfv, hfinitev, rfl⟩ := hv
  rcases unpackedAdd_cases hfu hfv hfiniteu hfinitev with hsum | ⟨n, e, zeroSign, hadd, hsum⟩
  · exact hsum
  · rw [hadd, ← hsum]
    rw [← hsum] at h
    exact normalize_exact h

theorem UnpackedDenotes.neg {u : UnpackedFloat} {q : ℚ} (h : UnpackedDenotes u q) :
    UnpackedDenotes u.neg (-q) := by
  obtain ⟨hfits, hfinite, rfl⟩ := h
  cases u with
  | notANumber => cases hfinite
  | infinity s => cases hfinite
  | zero s => exact ⟨trivial, rfl, neg_zero.symm⟩
  | finite s m e hm =>
      refine ⟨hfits, rfl, ?_⟩
      cases s with
      | positive => exact unpackedValue_negative hm
      | negative => rw [unpackedValue_negative, neg_neg]; exact unpackedValue_positive hm

/-- Subtracting is adding the negative, the signs of zeros and infinities included. -/
theorem unpackedSub_eq (u v : UnpackedFloat) :
    UnpackedFloat.sub Format.binary64 u v = UnpackedFloat.add Format.binary64 u v.neg := by
  cases u with
  | notANumber => rfl
  | infinity s => cases v <;> rfl
  | zero s => cases v <;> rfl
  | finite s m e hm =>
      cases v with
      | notANumber => rfl
      | infinity t => rfl
      | zero t => rfl
      | finite t n f hn =>
          have happly : ∀ k : ℤ, (-t).apply k = -t.apply k := by
            intro k
            cases t with
            | positive => rfl
            | negative => exact (neg_neg k).symm
          simp only [UnpackedFloat.sub, UnpackedFloat.neg, UnpackedFloat.add, happly,
            sub_eq_add_neg]

/-! ### Quotients -/

/-- A positive number lies between the powers of two around it. -/
theorem magnitude_bounds {m : ℕ} (hm : 0 < m) (e : ℤ) :
    (2 : ℚ) ^ (totalExponent m e - 1) ≤ m * (2 : ℚ) ^ e ∧
      (m : ℚ) * (2 : ℚ) ^ e < (2 : ℚ) ^ totalExponent m e := by
  have hpow : (0 : ℚ) < (2 : ℚ) ^ e := by positivity
  obtain ⟨hlow, hhigh⟩ := (Nat.log2_eq_iff hm.ne').1 rfl
  have hlow' : (2 : ℚ) ^ (m.log2 : ℤ) ≤ m := by
    rw [← natCast_two_pow]
    exact_mod_cast hlow
  have hhigh' : (m : ℚ) < (2 : ℚ) ^ ((m.log2 + 1 : ℕ) : ℤ) := by
    rw [← natCast_two_pow]
    exact_mod_cast hhigh
  constructor
  · rw [totalExponent, show (m.log2 : ℤ) + 1 + e - 1 = m.log2 + e by ring, zpow_add₀ (by norm_num)]
    exact mul_le_mul_of_nonneg_right hlow' hpow.le
  · rw [totalExponent, zpow_add₀ (by norm_num)]
    exact_mod_cast mul_lt_mul_of_pos_right hhigh' hpow

/-- **A quotient that is the number of a word leaves no remainder**: the exponent it is computed to
is not above that of the word. -/
theorem divCore_exact {m n c : ℕ} {e f g : ℤ} (hm : 0 < m) (hn : 0 < n) (hc : Canonical c g)
    (h : (m : ℚ) * (2 : ℚ) ^ e = n * (2 : ℚ) ^ f * (c * (2 : ℚ) ^ g)) :
    ∃ j : ℕ, divCore Format.binary64 m e n f = (c * 2 ^ j, g - j, .exact) := by
  have hle := hc.le
  have htarget :
      min (e - f) (Format.binary64.targetExponent (totalExponent m e - totalExponent n f)) ≤ g := by
    have hlt : (2 : ℚ) ^ (totalExponent m e - 1) < (2 : ℚ) ^ (totalExponent n f + (53 + g)) := by
      have hcg : (c : ℚ) * (2 : ℚ) ^ g < (2 : ℚ) ^ (53 + g) := by
        have hlt' : (c : ℚ) < (2 : ℚ) ^ (53 : ℤ) := by exact_mod_cast hc.lt
        rw [zpow_add₀ (by norm_num)]
        exact mul_lt_mul_of_pos_right hlt' (by positivity)
      calc (2 : ℚ) ^ (totalExponent m e - 1) ≤ m * (2 : ℚ) ^ e := (magnitude_bounds hm e).1
        _ = n * (2 : ℚ) ^ f * (c * (2 : ℚ) ^ g) := h
        _ < (2 : ℚ) ^ totalExponent n f * (2 : ℚ) ^ (53 + g) :=
            mul_lt_mul'' (magnitude_bounds hn f).2 hcg (by positivity) (by positivity)
        _ = (2 : ℚ) ^ (totalExponent n f + (53 + g)) := (zpow_add₀ (by norm_num) _ _).symm
    have hexponent := (zpow_lt_zpow_iff_right₀ (by norm_num)).1 hlt
    rw [targetExponent_eq]
    omega
  have hshift := min_le_left (e - f)
    (Format.binary64.targetExponent (totalExponent m e - totalExponent n f))
  rw [divCore]
  generalize min (e - f) _ = target at htarget hshift ⊢
  obtain ⟨j, rfl⟩ := Int.le.dest htarget
  obtain ⟨k, hk⟩ := Int.le.dest hshift
  have hamount : (e - f - target).toNat = k := by omega
  have hproduct : m <<< k = c * 2 ^ j * n := by
    have hpow : (2 : ℚ) ^ (f + target) ≠ 0 := by positivity
    have he : e = k + (f + target) := by omega
    rw [he, zpow_add₀ (by norm_num) (k : ℤ), zpow_add₀ (by norm_num) target, ← natCast_two_pow,
      ← natCast_two_pow] at h
    have hscaled : ((m * 2 ^ k : ℕ) : ℚ) * (2 : ℚ) ^ (f + target) =
        (c * 2 ^ j * n : ℕ) * (2 : ℚ) ^ (f + target) := by
      calc ((m * 2 ^ k : ℕ) : ℚ) * (2 : ℚ) ^ (f + target)
          = m * ((2 ^ k : ℕ) * (2 : ℚ) ^ (f + target)) := by rw [Nat.cast_mul, mul_assoc]
        _ = n * (2 : ℚ) ^ f * (c * ((2 : ℚ) ^ target * (2 ^ j : ℕ))) := h
        _ = (c * 2 ^ j * n : ℕ) * (2 : ℚ) ^ (f + target) := by
            rw [zpow_add₀ (by norm_num), Nat.cast_mul, Nat.cast_mul]
            ring
    rw [Nat.shiftLeft_eq]
    exact_mod_cast mul_right_cancel₀ hpow hscaled
  refine ⟨j, ?_⟩
  simp only [hamount, hproduct, Nat.mul_div_cancel _ hn, Nat.mul_mod_left, add_sub_cancel_right]
  rfl

/-- What a word holds that stands for a positive number. -/
theorem UnpackedDenotes.exists_positive {u : UnpackedFloat} {q : ℚ} (h : UnpackedDenotes u q)
    (hq : 0 < q) :
    ∃ m e hm, u = .finite .positive m e hm ∧ Canonical m e ∧ (m : ℚ) * (2 : ℚ) ^ e = q := by
  obtain ⟨hfits, hfinite, rfl⟩ := h
  cases u with
  | notANumber => cases hfinite
  | infinity s => cases hfinite
  | zero s => exact absurd hq (lt_irrefl 0)
  | finite s m e hm =>
      cases s with
      | positive => exact ⟨m, e, hm, rfl, hfits.1, (unpackedValue_positive hm).symm⟩
      | negative =>
          rw [unpackedValue_negative] at hq
          have hpos := magnitude_pos hm e
          linarith

/-! ### Words -/

/-- A finite word and the number it stands for. -/
structure Denotes (x : Float) (q : ℚ) : Prop where
  isFinite : x.isFinite = true
  value_eq : value x = q

theorem Denotes.unpack {x : Float} {q : ℚ} (h : Denotes x q) :
    UnpackedDenotes x.toModel.unpack q :=
  ⟨fits_model x, h.isFinite, h.value_eq⟩

theorem UnpackedDenotes.pack {u : UnpackedFloat} {q : ℚ} (h : UnpackedDenotes u q) :
    Denotes (.ofModel (.pack u)) q := by
  have hread : (Float.ofModel (.pack u)).toModel.unpack = u := unpack_pack h.fits
  refine ⟨?_, ?_⟩
  · change (Float.ofModel (.pack u)).toModel.unpack.isFinite = true
    rw [hread, h.isFinite]
  · rw [value, hread, h.value_eq]

/-- **A representable sum of words is exact.** -/
theorem Denotes.add {x y : Float} {p q : ℚ} (hx : Denotes x p) (hy : Denotes y q)
    (h : Representable (p + q)) : Denotes (x + y) (p + q) :=
  (hx.unpack.add hy.unpack h).pack

/-- **A representable difference of words is exact.** -/
theorem Denotes.sub {x y : Float} {p q : ℚ} (hx : Denotes x p) (hy : Denotes y q)
    (h : Representable (p - q)) : Denotes (x - y) (p - q) := by
  rw [sub_eq_add_neg] at h ⊢
  have hsub := hx.unpack.add hy.unpack.neg h
  rw [← unpackedSub_eq] at hsub
  exact hsub.pack

/-- **A representable quotient of positive words is exact.** -/
theorem Denotes.div {x y : Float} {p q : ℚ} (hx : Denotes x p) (hy : Denotes y q) (hp : 0 < p)
    (hq : 0 < q) (h : Representable (p / q)) : Denotes (x / y) (p / q) := by
  obtain ⟨u, hu⟩ := h
  obtain ⟨m, e, hm, hxu, -, hvalue⟩ := hx.unpack.exists_positive hp
  obtain ⟨n, f, hn, hyu, -, hvalue'⟩ := hy.unpack.exists_positive hq
  obtain ⟨c, g, hc, rfl, hcanonical, hquotient⟩ := hu.exists_positive (div_pos hp hq)
  have hproduct : (m : ℚ) * (2 : ℚ) ^ e = n * (2 : ℚ) ^ f * (c * (2 : ℚ) ^ g) := by
    rw [hvalue, hvalue', hquotient]
    field_simp
  obtain ⟨j, hdiv⟩ := divCore_exact hm hn hcanonical hproduct
  have hexponent : g - j + (j : ℕ) = g := by omega
  have hround := Canonical.roundWithAccuracy (s := .positive) (hexponent.symm ▸ hcanonical)
  simp only [hexponent] at hround
  have hunpacked : UnpackedFloat.div Format.binary64 x.toModel.unpack y.toModel.unpack =
      .finite .positive c g hc := by
    rw [hxu, hyu]
    simp only [UnpackedFloat.div, hdiv]
    exact hround
  have hpacked : Denotes (.ofModel (.pack (UnpackedFloat.div Format.binary64 x.toModel.unpack
      y.toModel.unpack))) (p / q) := by
    rw [hunpacked]
    exact hu.pack
  exact hpacked

/-- **A positive number is that of one word only.** -/
theorem Denotes.eq_of_pos {x y : Float} {q : ℚ} (hx : Denotes x q) (hy : Denotes y q) (hq : 0 < q) :
    x = y := by
  obtain ⟨m, e, hm, hxu, -, hvalue⟩ := hx.unpack.exists_positive hq
  have hround : ∀ z : Float, Denotes z q →
      UnpackedFloat.round Format.binary64 .positive m e = z.toModel.unpack := by
    intro z hz
    refine UnpackedDenotes.round_eq hm ?_
    rw [unpackedValue_positive, hvalue]
    exact hz.unpack
  rw [← ofModel_pack_unpack x, ← ofModel_pack_unpack y, ← hround x hx, ← hround y hy]

/-- Integers are added exactly up to `2 ^ 53`. -/
theorem Denotes.addInt {x y : Float} {p q : ℤ} (hx : Denotes x p) (hy : Denotes y q)
    (h : |p + q| ≤ 2 ^ 53) : Denotes (x + y) (p + q : ℤ) := by
  have hsum := representable_int h
  rw [Int.cast_add] at hsum ⊢
  exact hx.add hy hsum

theorem Denotes.subInt {x y : Float} {p q : ℤ} (hx : Denotes x p) (hy : Denotes y q)
    (h : |p - q| ≤ 2 ^ 53) : Denotes (x - y) (p - q : ℤ) := by
  have hdifference := representable_int h
  rw [Int.cast_sub] at hdifference ⊢
  exact hx.sub hy hdifference

theorem Denotes.beq {x y : Float} {q : ℚ} (hx : Denotes x q) (hy : Denotes y q) :
    (x == y) = true := by
  rw [beq_iff hx.isFinite hy.isFinite, hx.value_eq, hy.value_eq]

theorem denotes_zero : Denotes 0.0 (0 : ℤ) :=
  ⟨rfl, rfl⟩

theorem denotes_negativeZero : Denotes (-0.0) (0 : ℤ) :=
  ⟨rfl, rfl⟩

end WeightedSat.Binary64
