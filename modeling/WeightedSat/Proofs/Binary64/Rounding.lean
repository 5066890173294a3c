import WeightedSat.Proofs.Binary64.Nearest

/-!
**Sums of words are rounded sums.**

A sum of two words is computed from their significands: they are brought to one exponent, added as
integers, and shifted until the result fits.  What the shifting drops is remembered in two bits,
which decide how the significand is rounded; if it then takes one bit too many it is shifted once
more.  This module shows that all of this rounds the exact sum to the nearest number, ties to even.

Main definitions:

* `WeightedSat.Binary64.Stands` — the number a significand with its two residual bits stands for;
* `WeightedSat.Binary64.IsRounded` — what rounding gives: a canonical pair or zero.

Main results:

* `WeightedSat.Binary64.Stands.isNearest` — the residual bits decide as the nearest integer does;
* `WeightedSat.Binary64.rounds_round` — **shifting and rounding a significand gives the nearest
  number**;
* `WeightedSat.Binary64.rounds_add` — **a sum is the exact sum, rounded**.
-/

set_option relaxedAutoImplicit false
set_option autoImplicit false

namespace WeightedSat.Binary64

open Float.Model Float.Model.UnpackedFloat

/-! ### Residual bits -/

/-- The numbers that a significand with its residual bits may stand for: the bits say whether the
number lies below, at or above the middle between the significand and the next one. -/
def Stands (em : ExtendedMantissa) (q : ℚ) : Prop :=
  match em.roundBit, em.stickyBit with
  | false, false => q = em.mantissa
  | false, true => em.mantissa < q ∧ q < em.mantissa + 1 / 2
  | true, false => q = em.mantissa + 1 / 2
  | true, true => em.mantissa + 1 / 2 < q ∧ q < em.mantissa + 1

/-- **The residual bits decide as the nearest integer does.** -/
theorem Stands.isNearest {em : ExtendedMantissa} {q : ℚ} (h : Stands em q) :
    IsNearest q em.roundedMantissa := by
  obtain ⟨m, roundBit, stickyBit⟩ := em
  cases roundBit with
  | false =>
      cases stickyBit with
      | false =>
          obtain rfl : q = m := h
          exact isNearest_intCast m
      | true =>
          obtain ⟨hlow, hhigh⟩ : (m : ℚ) < q ∧ q < m + 1 / 2 := h
          change IsNearest q (m : ℕ)
          refine ⟨by push_cast; linarith, by push_cast; linarith, ?_⟩
          rintro (htie | htie) <;> push_cast at htie <;> linarith
  | true =>
      cases stickyBit with
      | false =>
          -- the middle: an odd significand is rounded up, so the result is even
          obtain rfl : q = m + 1 / 2 := h
          change IsNearest _ ((m + m % 2 : ℕ) : ℤ)
          have heven : Even (m + m % 2) := by
            rw [Nat.even_iff]
            omega
          have hmod : ((m % 2 : ℕ) : ℚ) = 0 ∨ ((m % 2 : ℕ) : ℚ) = 1 := by
            rcases Nat.mod_two_eq_zero_or_one m with h0 | h1
            · exact Or.inl (by rw [h0, Nat.cast_zero])
            · exact Or.inr (by rw [h1, Nat.cast_one])
          refine ⟨?_, ?_, fun _ => by exact_mod_cast heven⟩ <;>
            rw [Int.cast_natCast, Nat.cast_add] <;> rcases hmod with hmod | hmod <;> linarith
      | true =>
          obtain ⟨hlow, hhigh⟩ : (m : ℚ) + 1 / 2 < q ∧ q < m + 1 := h
          change IsNearest q ((m + 1 : ℕ) : ℤ)
          refine ⟨by push_cast; linarith, by push_cast; linarith, ?_⟩
          rintro (htie | htie) <;> push_cast at htie <;> linarith

/-- One shift halves the number; the bit that is dropped becomes the new round bit. -/
theorem Stands.shiftRightOne {em : ExtendedMantissa} {q : ℚ} (h : Stands em q) :
    Stands em.shiftRightOne (q / 2) := by
  obtain ⟨m, roundBit, stickyBit⟩ := em
  have hdivision : (m : ℚ) = 2 * (m / 2 : ℕ) + (m % 2 : ℕ) := by
    exact_mod_cast (Nat.div_add_mod m 2).symm
  rcases Nat.mod_two_eq_zero_or_one m with hm | hm <;>
    cases roundBit <;> cases stickyBit <;>
    simp only [Stands, ExtendedMantissa.shiftRightOne, hm, Nat.cast_zero, Nat.cast_one,
      bne_self_eq_false, Nat.reduceBneDiff, Bool.or_true, Bool.or_false] at h hdivision ⊢ <;>
    first | linarith | exact ⟨by linarith, by linarith⟩

theorem Stands.shiftRight {em : ExtendedMantissa} {q : ℚ} (h : Stands em q) (k : ℕ) :
    Stands (em >>> k) (q / 2 ^ k) := by
  change Stands (k.repeat ExtendedMantissa.shiftRightOne em) (q / 2 ^ k)
  induction k with
  | zero => simpa [Nat.repeat] using h
  | succ k ih =>
      rw [Nat.repeat, pow_succ, ← div_div]
      exact ih.shiftRightOne

/-! ### Rounding a significand -/

/-- What rounding gives: zero, or a canonical pair whose exponent has no upper bound yet. -/
def IsRounded : UnpackedFloat → Prop
  | .finite _ m e _ => Canonical m e
  | .zero _ => True
  | _ => False

/-- Something rounded that stands for the nearest number to a given one. -/
structure Rounds (u : UnpackedFloat) (q : ℚ) : Prop where
  isRounded : IsRounded u
  value_eq : unpackedValue u = nearest q

/-- **A rounded significand is shifted at most once more**: by one place where it has become the
power of two above fifty-three bits. -/
theorem shiftToTargetExponent_rounded {r : ℕ} {t : ℤ} (hle : r ≤ 2 ^ 53) (hleast : -1074 ≤ t)
    (hfull : 2 ^ 52 ≤ r ∨ t = -1074) :
    ∃ c f, UnpackedFloat.shiftToTargetExponent Format.binary64 r t .exact =
        (⟨c, false, false⟩, f) ∧
      (c : ℚ) * 2 ^ f = r * 2 ^ t ∧ (0 < c → Canonical c f) := by
  rcases Nat.eq_zero_or_pos r with rfl | hpos
  · have hamount : (Format.binary64.targetExponent (totalExponent 0 t) - t).toNat = 0 := by
      have htotal : totalExponent 0 t = 0 + 1 + t := rfl
      rw [targetExponent_eq, htotal]
      omega
    refine ⟨0, t, ?_, rfl, fun h => absurd h (lt_irrefl 0)⟩
    rw [UnpackedFloat.shiftToTargetExponent, shiftToExponent, hamount]
    exact Prod.ext rfl (add_zero t)
  · rcases hle.lt_or_eq with hlt | rfl
    · have hcanonical : Canonical r (t + (0 : ℕ)) := by
        rw [Nat.cast_zero, add_zero]
        exact ⟨hpos, hlt, hleast, hfull⟩
      have hshift := hcanonical.shiftToTargetExponent
      rw [pow_zero, Nat.mul_one] at hshift
      exact ⟨r, _, hshift, by rw [Nat.cast_zero, add_zero], fun _ => hcanonical⟩
    · have hcanonical : Canonical (2 ^ 52) (t + (1 : ℕ)) :=
        ⟨by decide, by decide, by push_cast; omega, Or.inl le_rfl⟩
      refine ⟨2 ^ 52, _, hcanonical.shiftToTargetExponent, ?_, fun _ => hcanonical⟩
      rw [zpow_add₀ (by norm_num)]
      norm_num
      ring

theorem unpackedValue_finite {s : Sign} {m : ℕ} {e : ℤ} (h : 0 < m) :
    unpackedValue (.finite s m e h) = s.apply 1 * ((m : ℚ) * 2 ^ e) := by
  cases s with
  | positive => rw [unpackedValue_positive, Sign.apply, Int.cast_one, one_mul]
  | negative =>
      rw [unpackedValue_negative, Sign.apply, Int.cast_neg, Int.cast_one, neg_one_mul]

/-- What treats both signs alike leaves a sign in front alone. -/
theorem apply_signed {f : ℚ → ℚ} (hf : ∀ q, f (-q) = -f q) (s : Sign) (q : ℚ) :
    f (s.apply 1 * q) = s.apply 1 * f q := by
  cases s with
  | positive => rw [Sign.apply, Int.cast_one, one_mul, one_mul]
  | negative => rw [Sign.apply, Int.cast_neg, Int.cast_one, neg_one_mul, neg_one_mul, hf]

/-- Shifting a significand to its last place leaves the residual bits that round it. -/
theorem roundWithAccuracy_rounds {s : Sign} {m : ℕ} {e : ℤ} (hm : 0 < m)
    (hle : e ≤ lastPlace (m * 2 ^ e)) :
    Rounds (UnpackedFloat.roundWithAccuracy Format.binary64 s m e .exact)
      (s.apply 1 * ((m : ℚ) * 2 ^ e)) := by
  have hpos := magnitude_pos hm e
  obtain ⟨k, hk⟩ := Int.le.dest hle
  have hamount : (lastPlace (m * 2 ^ e) - e).toNat = k := by omega
  have hfirst : UnpackedFloat.shiftToTargetExponent Format.binary64 m e .exact =
      ((⟨m, false, false⟩ : ExtendedMantissa) >>> k, lastPlace (m * 2 ^ e)) := by
    rw [UnpackedFloat.shiftToTargetExponent, ← lastPlace_eq hm, shiftToExponent, hamount, hk]
    rfl
  -- what is left of the significand stands for the number in units of its last place
  have hstands : Stands ((⟨m, false, false⟩ : ExtendedMantissa) >>> k)
      (m * 2 ^ e / 2 ^ lastPlace (m * 2 ^ e)) := by
    have hunits : (m : ℚ) * 2 ^ e / 2 ^ lastPlace (m * 2 ^ e) = m / 2 ^ k := by
      rw [← hk, zpow_add₀ (by norm_num), zpow_natCast]
      field_simp
    have hself : Stands ⟨m, false, false⟩ m := rfl
    rw [hunits]
    exact hself.shiftRight k
  have hnearest := nearestInt_eq hstands.isNearest
  obtain ⟨hmost, hfull⟩ := nearestInt_bounds hpos
  rw [hnearest] at hmost hfull
  obtain ⟨c, f, hagain, hvalue, hcanonical⟩ := shiftToTargetExponent_rounded
    (by exact_mod_cast hmost) (lastPlace_ge _) (by exact_mod_cast hfull)
  have hresult : nearest (s.apply 1 * ((m : ℚ) * 2 ^ e)) = s.apply 1 * ((c : ℚ) * 2 ^ f) := by
    rw [apply_signed nearest_neg, nearest, hnearest, hvalue, Int.cast_natCast]
  simp only [UnpackedFloat.roundWithAccuracy, hfirst, hagain]
  split
  · rename_i hzero
    refine ⟨trivial, ?_⟩
    rw [hresult, hzero, unpackedValue_zero, Nat.cast_zero, zero_mul, mul_zero]
  · rename_i hne
    exact ⟨hcanonical (Nat.pos_of_ne_zero hne), by rw [hresult, unpackedValue_finite]⟩

/-- **Shifting and rounding a significand gives the nearest number.** -/
theorem rounds_round {s : Sign} {m : ℕ} {e : ℤ} (hm : 0 < m) :
    Rounds (UnpackedFloat.round Format.binary64 s m e) (s.apply 1 * ((m : ℚ) * 2 ^ e)) := by
  obtain ⟨k, hk⟩ : ∃ k, (e - lastPlace (m * 2 ^ e)).toNat = k := ⟨_, rfl⟩
  -- zeros are appended until the exponent is not above the last place
  have hvalue : ((m * 2 ^ k : ℕ) : ℚ) * 2 ^ (e - k) = m * 2 ^ e := by
    rw [Nat.cast_mul, natCast_two_pow, mul_assoc, ← zpow_add₀ (by norm_num), add_sub_cancel]
  have hrounds := roundWithAccuracy_rounds (s := s) (m := m * 2 ^ k) (e := e - k)
    (Nat.mul_pos hm (Nat.two_pow_pos k)) (by rw [hvalue]; omega)
  rw [hvalue] at hrounds
  simp only [UnpackedFloat.round, decreaseExponent, ← lastPlace_eq hm, hk, Nat.shiftLeft_eq]
  exact hrounds

/-- A signed significand, rounded. -/
theorem rounds_normalize (n e : ℤ) (zeroSign : Sign) :
    Rounds (UnpackedFloat.normalize Format.binary64 n e zeroSign) (n * 2 ^ e) := by
  rcases normalize_cases n e zeroSign with ⟨rfl, hzero⟩ | ⟨s, m, hm, rfl, hround⟩
  · rw [hzero]
    refine ⟨trivial, ?_⟩
    rw [unpackedValue_zero, Int.cast_zero, zero_mul, nearest_zero]
  · have hsigned : ((s.apply m : ℤ) : ℚ) = s.apply 1 * m := by
      cases s <;> simp [Sign.apply]
    rw [hround, hsigned, mul_assoc]
    exact rounds_round hm

/-! ### Sums -/

/-- What a word holds is rounded already. -/
theorem Fits.rounds {u : UnpackedFloat} (hu : Fits u) (hfinite : u.isFinite = true) :
    Rounds u (unpackedValue u) := by
  cases u with
  | notANumber => cases hfinite
  | infinity s => cases hfinite
  | zero s => exact ⟨trivial, nearest_zero.symm⟩
  | finite s m e hm =>
      exact ⟨hu.1, by rw [unpackedValue_finite, apply_signed nearest_neg, hu.1.nearest_eq]⟩

/-- **A sum is the exact sum, rounded.** -/
theorem rounds_add {u v : UnpackedFloat} (hu : Fits u) (hv : Fits v) (hfu : u.isFinite = true)
    (hfv : v.isFinite = true) :
    Rounds (UnpackedFloat.add Format.binary64 u v) (unpackedValue u + unpackedValue v) := by
  rcases unpackedAdd_cases hu hv hfu hfv with ⟨hfits, hfinite, hvalue⟩ | ⟨n, e, z, hadd, hsum⟩
  · rw [← hvalue]
    exact hfits.rounds hfinite
  · rw [hadd, ← hsum]
    exact rounds_normalize n e z

end WeightedSat.Binary64
