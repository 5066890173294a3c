import WeightedSat.Proofs.Binary64.Sums

/-!
**Remainders: the difference of two words.**

Every word is a whole multiple of the least positive one.  Two words that stand for different
numbers are therefore at least that far apart, and since the distance is rounded to a number that is
no smaller than the least positive word, subtracting one of them from the other never gives zero:
this is what gradual underflow is for.  Rounding keeps the order too, so what remains when something
is taken from a word is no greater than the word.

Main definitions:

* `WeightedSat.Binary64.leastPositive` — the number of the least positive word;
* `WeightedSat.Binary64.IsWeight` — positive finite words up to a bound.

Main results:

* `WeightedSat.Binary64.addRounded_pos` — **a difference that is positive stays positive**;
* `WeightedSat.Binary64.zero_lt_sub_iff`, `WeightedSat.Binary64.sub_lt_zero_iff` — the sign of a
  difference;
* `WeightedSat.Binary64.neg_sub_word` — the negative of a difference is the difference the other
  way round;
* `WeightedSat.Binary64.IsWeight.sub` — **what remains of a weight is a weight within its bound**.
-/

set_option relaxedAutoImplicit false
set_option autoImplicit false

namespace WeightedSat.Binary64

open Float.Model Float.Model.UnpackedFloat

variable {x y : Float} {p q : ℚ}

/-! ### Multiples of the least positive word -/

/-- The number of the least positive word. -/
def leastPositive : ℚ := 2 ^ (-1074 : ℤ)

theorem leastPositive_pos : 0 < leastPositive := by
  rw [leastPositive]
  positivity

/-- Rounding leaves the least positive number alone. -/
theorem nearest_leastPositive : nearest leastPositive = leastPositive := by
  have hcanonical : Canonical 1 (-1074) := ⟨Nat.one_pos, by decide, le_rfl, Or.inr rfl⟩
  have heq := hcanonical.nearest_eq
  rwa [Nat.cast_one, one_mul] at heq

/-- **Every word is a whole multiple of the least positive one.** -/
theorem exists_multiple (hx : x.isFinite = true) : ∃ n : ℤ, value x = n * leastPositive := by
  have hfits := fits_model x
  change x.toModel.unpack.isFinite = true at hx
  rw [value]
  cases hu : x.toModel.unpack with
  | notANumber => rw [hu] at hx; cases hx
  | infinity s => rw [hu] at hx; cases hx
  | zero s => exact ⟨0, by rw [unpackedValue_zero, Int.cast_zero, zero_mul]⟩
  | finite s m e hm =>
      rw [hu] at hfits
      obtain ⟨k, hk⟩ := exists_two_pow_eq hfits.1.le
      refine ⟨s.apply m * k, ?_⟩
      rw [unpackedValue, hk, Int.cast_mul, mul_assoc]
      rfl

/-- Numbers of different words are at least the least positive number apart. -/
theorem leastPositive_le_sub (hx : x.isFinite = true) (hy : y.isFinite = true)
    (h : value y < value x) : leastPositive ≤ value x - value y := by
  obtain ⟨m, hm⟩ := exists_multiple hx
  obtain ⟨n, hn⟩ := exists_multiple hy
  rw [hm, hn] at h ⊢
  have hlt : n < m := by exact_mod_cast lt_of_mul_lt_mul_right h leastPositive_pos.le
  have hstep : (1 : ℚ) ≤ m - n := by exact_mod_cast (show 1 ≤ m - n by omega)
  calc leastPositive = 1 * leastPositive := (one_mul _).symm
    _ ≤ (m - n) * leastPositive := mul_le_mul_of_nonneg_right hstep leastPositive_pos.le
    _ = m * leastPositive - n * leastPositive := sub_mul _ _ _

/-! ### The place of a difference -/

theorem addRounded_value (hx : x.isFinite = true) (q : ℚ) :
    addRounded (value x) q = clamp (nearest (value x + q)) :=
  if_neg (not_le.2 (abs_value_lt_limit hx))

theorem clamp_pos (h : 0 < p) : 0 < clamp p :=
  (lt_min h limit_pos).trans_le (le_max_right _ _)

/-- **A difference that is positive stays positive**: rounding does not take it below the least
positive number. -/
theorem addRounded_pos (hx : x.isFinite = true) (hy : y.isFinite = true)
    (h : value y < value x) : 0 < addRounded (value x) (-value y) := by
  rw [addRounded_value hx, ← sub_eq_add_neg]
  refine clamp_pos ?_
  calc 0 < leastPositive := leastPositive_pos
    _ = nearest leastPositive := nearest_leastPositive.symm
    _ ≤ nearest (value x - value y) := nearest_mono (leastPositive_le_sub hx hy h)

/-- Differences of words may be turned round. -/
theorem addRounded_swap (hx : x.isFinite = true) (hy : y.isFinite = true) :
    addRounded (value y) (-value x) = -addRounded (value x) (-value y) := by
  rw [← addRounded_neg, neg_neg, addRounded_value hy, ← value_neg hx,
    addRounded_value ((isFinite_neg x).trans hx), add_comm]

theorem addRounded_self (hx : x.isFinite = true) : addRounded (value x) (-value x) = 0 := by
  rw [addRounded_value hx, add_neg_cancel, nearest_zero,
    clamp_eq_self (by rw [abs_zero]; exact limit_pos.le)]

/-- What remains when something is taken away is no greater. -/
theorem addRounded_le (hx : x.isFinite = true) (hy : 0 ≤ value y) :
    addRounded (value x) (-value y) ≤ value x :=
  (addRounded_mono_right _ (neg_nonpos.2 hy)).trans (isAt_value hx).addRounded_zero.le

theorem addRounded_pos_iff (hx : x.isFinite = true) (hy : y.isFinite = true) :
    0 < addRounded (value x) (-value y) ↔ value y < value x := by
  refine ⟨fun h => ?_, addRounded_pos hx hy⟩
  by_contra hle
  -- a difference that is not positive is zero, or the negative of a positive one
  rcases (not_lt.1 hle).eq_or_lt with heq | hlt
  · rw [← heq, addRounded_self hx] at h
    exact lt_irrefl 0 h
  · have hback := addRounded_pos hy hx hlt
    rw [addRounded_swap hx hy] at hback
    linarith

/-! ### Words -/

/-- **When a difference is positive.** -/
theorem zero_lt_sub_iff (hx : x.isFinite = true) (hy : y.isFinite = true) :
    0.0 < x - y ↔ value y < value x := by
  rw [isAt_zero.lt_iff ((isAt_value hx).sub hy), addRounded_pos_iff hx hy]

/-- **When a difference is negative.** -/
theorem sub_lt_zero_iff (hx : x.isFinite = true) (hy : y.isFinite = true) :
    x - y < 0.0 ↔ value x < value y := by
  rw [((isAt_value hx).sub hy).lt_iff isAt_zero, ← addRounded_pos_iff hy hx, addRounded_swap hx hy,
    neg_pos]

theorem abs_sub_eq_zero (hx : x.isFinite = true) (hy : y.isFinite = true)
    (h : value x = value y) : ((x - y).abs == 0.0) = true := by
  rw [((isAt_value hx).sub hy).abs.beq_iff isAt_zero, ← h, addRounded_self hx, abs_zero]

/-- A word that stands between the infinities is finite. -/
theorem IsAt.denotes (h : IsAt x p) (hp : |p| < limit) : Denotes x p := by
  rcases h.value_or_infinity with ⟨hfinite, hvalue⟩ | ⟨s, -, rfl⟩
  · exact ⟨hfinite, hvalue⟩
  · rw [abs_signed, abs_of_pos limit_pos] at hp
    exact absurd hp (lt_irrefl limit)

/-! ### Weights -/

/-- A positive finite word up to a bound. -/
structure IsWeight (bound : ℚ) (w : Float) : Prop where
  isFinite : w.isFinite = true
  pos : 0 < value w
  le : value w ≤ bound

theorem IsWeight.denotes_sub (hx : IsWeight p x) (hy : IsWeight q y) (h : value y < value x) :
    Denotes (x - y) (addRounded (value x) (-value y)) := by
  refine ((isAt_value hx.isFinite).sub hy.isFinite).denotes ?_
  rw [abs_of_pos (addRounded_pos hx.isFinite hy.isFinite h)]
  calc addRounded (value x) (-value y) ≤ value x := addRounded_le hx.isFinite hy.pos.le
    _ ≤ |value x| := le_abs_self _
    _ < limit := abs_value_lt_limit hx.isFinite

/-- **What remains of a weight is a weight within its bound.** -/
theorem IsWeight.sub (hx : IsWeight p x) (hy : IsWeight q y) (h : value y < value x) :
    IsWeight p (x - y) := by
  obtain ⟨hfinite, hvalue⟩ := hx.denotes_sub hy h
  refine ⟨hfinite, ?_, ?_⟩
  · rw [hvalue]
    exact addRounded_pos hx.isFinite hy.isFinite h
  · rw [hvalue]
    exact (addRounded_le hx.isFinite hy.pos.le).trans hx.le

/-- A remainder is determined by its place. -/
theorem IsWeight.eq_sub {w : Float} (hx : IsWeight p x) (hy : IsWeight q y) (h : value y < value x)
    (hw : IsAt w (addRounded (value x) (-value y))) : w = x - y := by
  have hsub := hx.denotes_sub hy h
  have hlimit := abs_value_lt_limit hsub.isFinite
  rw [hsub.value_eq] at hlimit
  exact (hw.denotes hlimit).eq_of_pos hsub (addRounded_pos hx.isFinite hy.isFinite h)

/-- The size of a positive difference is the difference. -/
theorem IsWeight.abs_sub (hx : IsWeight p x) (hy : IsWeight q y) (h : value y < value x) :
    (x - y).abs = x - y := by
  have habs := ((isAt_value hx.isFinite).sub hy.isFinite).abs
  rw [abs_of_pos (addRounded_pos hx.isFinite hy.isFinite h)] at habs
  exact hx.eq_sub hy h habs

/-- **The negative of a difference** is the difference the other way round. -/
theorem IsWeight.neg_sub (hx : IsWeight p x) (hy : IsWeight q y) (h : value x < value y) :
    -(x - y) = y - x := by
  have hneg := ((isAt_value hx.isFinite).sub hy.isFinite).neg
  rw [← addRounded_swap hx.isFinite hy.isFinite] at hneg
  exact hy.eq_sub hx h hneg

/-- The size of a negative difference is the difference the other way round. -/
theorem IsWeight.abs_sub_of_lt (hx : IsWeight p x) (hy : IsWeight q y) (h : value x < value y) :
    (x - y).abs = y - x := by
  have habs := ((isAt_value hx.isFinite).sub hy.isFinite).abs
  rw [← abs_neg, ← addRounded_swap hx.isFinite hy.isFinite,
    abs_of_pos (addRounded_pos hy.isFinite hx.isFinite h)] at habs
  exact hy.eq_sub hx h habs

end WeightedSat.Binary64
