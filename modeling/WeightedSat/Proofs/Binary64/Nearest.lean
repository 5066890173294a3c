import WeightedSat.Proofs.Binary64.Exact

/-!
**Rounding to the nearest number, ties to even.**

Words hold multiples of a power of two, the last place of a number, which depends on how large the
number is.  Rounding takes a number to the nearest multiple of its last place, of two equally near
ones to the even one.  All that sums of words need to know about it is on this page: it keeps the
order of numbers, it treats both signs alike, and it leaves the numbers of words alone.

The order is kept because rounding never moves a number past a multiple of its last place, and a
number with a greater last place lies on the other side of a power of two, which is such a multiple.

Main definitions:

* `WeightedSat.Binary64.nearestInt` — the nearest integer;
* `WeightedSat.Binary64.lastPlace` — the exponent of the last place of a number;
* `WeightedSat.Binary64.nearest` — **a number, rounded** as if exponents had no upper bound.

Main results:

* `WeightedSat.Binary64.IsNearest.mono` — nearest integers keep the order of numbers;
* `WeightedSat.Binary64.le_nearest`, `WeightedSat.Binary64.nearest_le` — rounding passes no multiple
  of the last place;
* `WeightedSat.Binary64.nearest_neg`, `WeightedSat.Binary64.nearest_mono` — **rounding is odd and
  keeps the order**;
* `WeightedSat.Binary64.Canonical.nearest_eq` — rounding leaves the number of a word alone.
-/

set_option relaxedAutoImplicit false
set_option autoImplicit false

namespace WeightedSat.Binary64

open Float.Model Float.Model.UnpackedFloat

variable {p q : ℚ} {m n : ℤ}

/-! ### The nearest integer -/

/-- The integer nearest to a number, of two equally near ones the even one. -/
def nearestInt (q : ℚ) : ℤ :=
  if Int.fract q < 1 / 2 then ⌊q⌋
  else if 1 / 2 < Int.fract q then ⌊q⌋ + 1
  else if Even ⌊q⌋ then ⌊q⌋ else ⌊q⌋ + 1

/-- What makes an integer the nearest one. -/
structure IsNearest (q : ℚ) (n : ℤ) : Prop where
  ge : n - 1 / 2 ≤ q
  le : q ≤ n + 1 / 2
  /-- Of two equally near integers it is the even one. -/
  even : q = n - 1 / 2 ∨ q = n + 1 / 2 → Even n

theorem isNearest_nearestInt (q : ℚ) : IsNearest q (nearestInt q) := by
  have hsplit := Int.floor_add_fract q
  have hnonneg := Int.fract_nonneg q
  have hlt := Int.fract_lt_one q
  rw [nearestInt]
  split
  · refine ⟨by linarith, by linarith, ?_⟩
    rintro (h | h) <;> linarith
  · split
    · refine ⟨by push_cast; linarith, by push_cast; linarith, ?_⟩
      rintro (h | h) <;> push_cast at h <;> linarith
    · -- the number is halfway between two integers, one of which is even
      have hhalf : Int.fract q = 1 / 2 := by linarith
      split
      · rename_i heven
        exact ⟨by linarith, by linarith, fun _ => heven⟩
      · rename_i hodd
        refine ⟨by push_cast; linarith, by push_cast; linarith, fun _ => ?_⟩
        exact (Int.not_even_iff_odd.1 hodd).add_one

/-- **Nearest integers keep the order of numbers.** -/
theorem IsNearest.mono (hp : IsNearest p m) (hq : IsNearest q n) (h : p ≤ q) : m ≤ n := by
  by_contra hlt
  have hge : (n : ℚ) + 1 ≤ m := by exact_mod_cast Int.not_le.1 hlt
  have hpge := hp.ge
  have hqle := hq.le
  -- only if both numbers lie halfway between the same two integers, which are then both even
  have hnext : m = n + 1 := by
    have hle : (m : ℚ) ≤ n + 1 := by linarith
    exact le_antisymm (by exact_mod_cast hle) (Int.not_le.1 hlt)
  have heven : Even m := hp.even (Or.inl (by linarith))
  have heven' : Even n := hq.even (Or.inr (by linarith))
  rw [hnext] at heven
  exact Int.not_even_iff_odd.2 heven'.add_one heven

theorem IsNearest.unique (hm : IsNearest q m) (hn : IsNearest q n) : m = n :=
  le_antisymm (hm.mono hn le_rfl) (hn.mono hm le_rfl)

theorem IsNearest.neg (h : IsNearest q n) : IsNearest (-q) (-n) := by
  have hge := h.ge
  have hle := h.le
  refine ⟨by push_cast; linarith, by push_cast; linarith, ?_⟩
  intro htie
  refine (h.even ?_).neg
  rcases htie with htie | htie <;> push_cast at htie
  · exact Or.inr (by linarith)
  · exact Or.inl (by linarith)

theorem isNearest_intCast (n : ℤ) : IsNearest n n := by
  refine ⟨by linarith, by linarith, ?_⟩
  rintro (h | h) <;> linarith

theorem nearestInt_eq (h : IsNearest q n) : nearestInt q = n :=
  (isNearest_nearestInt q).unique h

/-! ### Rounding -/

/-- **The exponent of the last place of a number**: fifty-three bits fit before it, unless it would
fall below the least exponent. -/
def lastPlace (q : ℚ) : ℤ := max (Int.log 2 |q| - 52) (-1074)

/-- **A number, rounded** to the nearest multiple of its last place. -/
def nearest (q : ℚ) : ℚ := nearestInt (q / 2 ^ lastPlace q) * 2 ^ lastPlace q

theorem lastPlace_ge (q : ℚ) : -1074 ≤ lastPlace q := le_max_right _ _

theorem lastPlace_neg (q : ℚ) : lastPlace (-q) = lastPlace q := by
  rw [lastPlace, lastPlace, abs_neg]

/-- **Both signs are treated alike.** -/
theorem nearest_neg (q : ℚ) : nearest (-q) = -nearest q := by
  rw [nearest, nearest, lastPlace_neg, neg_div, nearestInt_eq (isNearest_nearestInt _).neg,
    Int.cast_neg, neg_mul]

/-- **Rounding up does not pass a multiple of the last place.** -/
theorem nearest_le (h : q ≤ n * 2 ^ lastPlace q) : nearest q ≤ n * 2 ^ lastPlace q := by
  have hpow : (0 : ℚ) < 2 ^ lastPlace q := by positivity
  have hquotient : q / 2 ^ lastPlace q ≤ n := (div_le_iff₀ hpow).2 h
  have hle := (isNearest_nearestInt _).mono (isNearest_intCast n) hquotient
  exact mul_le_mul_of_nonneg_right (by exact_mod_cast hle) hpow.le

/-- **Rounding down does not pass a multiple of the last place.** -/
theorem le_nearest (h : n * 2 ^ lastPlace q ≤ q) : n * 2 ^ lastPlace q ≤ nearest q := by
  have hpow : (0 : ℚ) < 2 ^ lastPlace q := by positivity
  have hquotient : (n : ℚ) ≤ q / 2 ^ lastPlace q := (le_div_iff₀ hpow).2 h
  have hle := (isNearest_intCast n).mono (isNearest_nearestInt _) hquotient
  exact mul_le_mul_of_nonneg_right (by exact_mod_cast hle) hpow.le

theorem nearest_zero : nearest 0 = 0 := by
  rw [nearest, zero_div, nearestInt_eq (by simpa using isNearest_intCast 0), Int.cast_zero,
    zero_mul]

theorem nearest_nonneg (h : 0 ≤ q) : 0 ≤ nearest q := by
  have hle := le_nearest (q := q) (n := 0) (by simpa using h)
  simpa using hle

/-- Numbers with the same last place are rounded to multiples of the same power of two. -/
theorem nearest_mono_of_lastPlace_eq (h : p ≤ q) (hplace : lastPlace p = lastPlace q) :
    nearest p ≤ nearest q := by
  have hpow : (0 : ℚ) < 2 ^ lastPlace q := by positivity
  rw [nearest, nearest, hplace]
  have hle := (isNearest_nearestInt _).mono (isNearest_nearestInt _)
    (div_le_div_of_nonneg_right h hpow.le)
  exact mul_le_mul_of_nonneg_right (by exact_mod_cast hle) hpow.le

/-- A power of two above the last place is a multiple of it. -/
theorem exists_two_pow_eq {e f : ℤ} (h : e ≤ f) : ∃ n : ℤ, (2 : ℚ) ^ f = n * 2 ^ e := by
  obtain ⟨k, rfl⟩ := Int.le.dest h
  refine ⟨2 ^ k, ?_⟩
  rw [zpow_add₀ (by norm_num), zpow_natCast, mul_comm]
  norm_num

theorem nearest_mono_of_nonneg (hp : 0 ≤ p) (h : p ≤ q) : nearest p ≤ nearest q := by
  have hq : 0 ≤ q := hp.trans h
  rcases hp.eq_or_lt with rfl | hpos
  · rw [nearest_zero]
    exact nearest_nonneg hq
  have hlog : Int.log 2 |p| ≤ Int.log 2 |q| := by
    rw [abs_of_nonneg hp, abs_of_nonneg hq]
    exact Int.log_mono_right hpos h
  have hle : lastPlace p ≤ lastPlace q := max_le_max_right _ (by omega)
  rcases hle.eq_or_lt with heq | hlt
  · exact nearest_mono_of_lastPlace_eq h heq
  · -- a power of two, which is a multiple of both last places, lies between the two numbers
    have hplace : lastPlace q = max (Int.log 2 |q| - 52) (-1074) := rfl
    have hplace' : lastPlace p = max (Int.log 2 |p| - 52) (-1074) := rfl
    rw [abs_of_nonneg hq] at hplace
    rw [abs_of_nonneg hp] at hplace'
    have hpower : p < 2 ^ (lastPlace q + 52) := by
      exact_mod_cast (Int.lt_zpow_iff_log_lt (b := 2) (by norm_num) hpos).2 (by omega)
    have hpower' : (2 : ℚ) ^ (lastPlace q + 52) ≤ q := by
      exact_mod_cast (Int.zpow_le_iff_le_log (b := 2) (by norm_num) (hpos.trans_le h)).2 (by omega)
    obtain ⟨n, hn⟩ := exists_two_pow_eq (e := lastPlace p) (f := lastPlace q + 52) (by omega)
    obtain ⟨n', hn'⟩ := exists_two_pow_eq (e := lastPlace q) (f := lastPlace q + 52) (by omega)
    calc nearest p ≤ 2 ^ (lastPlace q + 52) := by
          rw [hn] at hpower ⊢
          exact nearest_le hpower.le
      _ ≤ nearest q := by
          rw [hn'] at hpower' ⊢
          exact le_nearest hpower'

/-- **Rounding keeps the order of numbers.** -/
theorem nearest_mono (h : p ≤ q) : nearest p ≤ nearest q := by
  rcases le_total 0 p with hp | hp
  · exact nearest_mono_of_nonneg hp h
  · rcases le_total 0 q with hq | hq
    · have hneg := nearest_nonneg (neg_nonneg.2 hp)
      rw [nearest_neg] at hneg
      exact (neg_nonneg.1 hneg).trans (nearest_nonneg hq)
    · have hneg := nearest_mono_of_nonneg (neg_nonneg.2 hq) (neg_le_neg h)
      rw [nearest_neg, nearest_neg] at hneg
      exact neg_le_neg_iff.1 hneg

/-- A rounded number has at most fifty-three bits, or is the power of two above them; it has no less
unless its last place is the least. -/
theorem nearestInt_bounds (hq : 0 < q) :
    nearestInt (q / 2 ^ lastPlace q) ≤ 2 ^ 53 ∧
      (2 ^ 52 ≤ nearestInt (q / 2 ^ lastPlace q) ∨ lastPlace q = -1074) := by
  have hpow : (0 : ℚ) < 2 ^ lastPlace q := by positivity
  have hplace : lastPlace q = max (Int.log 2 |q| - 52) (-1074) := rfl
  rw [abs_of_pos hq] at hplace
  have hnearest := isNearest_nearestInt (q / 2 ^ lastPlace q)
  constructor
  · have hlt : q < 2 ^ (53 + lastPlace q) := by
      exact_mod_cast (Int.lt_zpow_iff_log_lt (b := 2) (by norm_num) hq).2 (by omega)
    have hquotient : q / 2 ^ lastPlace q ≤ ((2 ^ 53 : ℤ) : ℚ) := by
      rw [div_le_iff₀ hpow]
      rw [zpow_add₀ (by norm_num)] at hlt
      exact_mod_cast hlt.le
    exact hnearest.mono (isNearest_intCast _) hquotient
  · refine or_iff_not_imp_right.2 fun hne => ?_
    have hle : (2 : ℚ) ^ (52 + lastPlace q) ≤ q := by
      exact_mod_cast (Int.zpow_le_iff_le_log (b := 2) (by norm_num) hq).2 (by omega)
    have hquotient : ((2 ^ 52 : ℤ) : ℚ) ≤ q / 2 ^ lastPlace q := by
      rw [le_div_iff₀ hpow]
      rw [zpow_add₀ (by norm_num)] at hle
      exact_mod_cast hle
    exact (isNearest_intCast _).mono hnearest hquotient

/-! ### The numbers of words -/

/-- The last place is the exponent that rounding a significand aims at. -/
theorem lastPlace_eq {m : ℕ} (hm : 0 < m) (e : ℤ) :
    lastPlace (m * 2 ^ e) = Format.binary64.targetExponent (totalExponent m e) := by
  have hpos := magnitude_pos hm e
  obtain ⟨hlow, hhigh⟩ := magnitude_bounds hm e
  have hlog : Int.log 2 ((m : ℚ) * 2 ^ e) = totalExponent m e - 1 := by
    have hle := (Int.zpow_le_iff_le_log (b := 2) (by norm_num) hpos).1 (by exact_mod_cast hlow)
    have hlt := (Int.lt_zpow_iff_log_lt (b := 2) (by norm_num) hpos).1 (by exact_mod_cast hhigh)
    omega
  rw [lastPlace, abs_of_pos hpos, hlog, targetExponent_eq]
  congr 1
  ring

/-- **Rounding leaves the number of a word alone.** -/
theorem Canonical.nearest_eq {m : ℕ} {e : ℤ} (h : Canonical m e) :
    nearest (m * 2 ^ e) = m * 2 ^ e := by
  have hplace : lastPlace (m * 2 ^ e) = e := by rw [lastPlace_eq h.pos, h.targetExponent]
  have hself : ((m : ℤ) : ℚ) * 2 ^ lastPlace (m * 2 ^ e) = m * 2 ^ e := by
    rw [hplace, Int.cast_natCast]
  have hle := nearest_le hself.ge
  have hge := le_nearest hself.le
  rw [hself] at hle hge
  exact le_antisymm hle hge

end WeightedSat.Binary64
