import WeightedSat.Proofs.Binary64.Word

/-!
**The number a floating-point word stands for.**

Every finite word stands for a rational number, an integer times a power of two.  Comparing two
finite words compares these numbers: the two zeros are equal, and otherwise a word with the greater
exponent is greater, because its significand has the leading bit that the smaller one would need.

Main definitions:

* `WeightedSat.Binary64.value` — the number a word stands for.

Main results:

* `WeightedSat.Binary64.Canonical.lt_of_exponent_lt` — the exponent decides first;
* `WeightedSat.Binary64.compare_eq` — **words compare as their numbers do**;
* `WeightedSat.Binary64.beq_iff`, `WeightedSat.Binary64.lt_iff` — the comparisons of a program;
* `WeightedSat.Binary64.beq_iff_value_or_infinity` — **when two words are equal as numbers**.
-/

set_option relaxedAutoImplicit false
set_option autoImplicit false

namespace WeightedSat.Binary64

open Float.Model Float.Model.UnpackedFloat

/-! ### Numbers -/

/-- The number that a sign, a significand and an exponent stand for; zero for what is none. -/
def unpackedValue : UnpackedFloat → ℚ
  | .finite s m e _ => (s.apply m : ℤ) * (2 : ℚ) ^ e
  | _ => 0

/-- **The number a word stands for**; zero where it is not finite. -/
def value (x : Float) : ℚ := unpackedValue x.toModel.unpack

theorem unpackedValue_zero (s : Sign) : unpackedValue (.zero s) = 0 := rfl

theorem unpackedValue_positive {m : ℕ} {e : ℤ} (h : 0 < m) :
    unpackedValue (.finite .positive m e h) = m * (2 : ℚ) ^ e := by
  simp [unpackedValue, Sign.apply]

theorem unpackedValue_negative {m : ℕ} {e : ℤ} (h : 0 < m) :
    unpackedValue (.finite .negative m e h) = -(m * (2 : ℚ) ^ e) := by
  simp [unpackedValue, Sign.apply]

theorem value_of_unpack {x : Float} {m : ℕ} {e : ℤ} {h : 0 < m}
    (hx : x.toModel.unpack = .finite .positive m e h) : value x = m * (2 : ℚ) ^ e := by
  rw [value, hx, unpackedValue_positive]

theorem magnitude_pos {m : ℕ} (h : 0 < m) (e : ℤ) : 0 < (m : ℚ) * (2 : ℚ) ^ e := by
  have hm : (0 : ℚ) < m := by exact_mod_cast h
  positivity

/-! ### Order -/

/-- The exponent decides first: a greater one comes with a leading bit. -/
theorem Canonical.lt_of_exponent_lt {m n : ℕ} {e f : ℤ} (hm : Canonical m e) (hn : Canonical n f)
    (h : e < f) : (m : ℚ) * (2 : ℚ) ^ e < n * (2 : ℚ) ^ f := by
  have hfull : 2 ^ 52 ≤ n := by
    have hle := hm.le
    rcases hn.full with hfull | hleast
    · exact hfull
    · omega
  have hlt : (m : ℚ) < 2 * n := by
    have hlt := hm.lt
    have hnat : m < 2 * n := by omega
    exact_mod_cast hnat
  calc (m : ℚ) * (2 : ℚ) ^ e < 2 * n * (2 : ℚ) ^ e := by
        exact mul_lt_mul_of_pos_right hlt (by positivity)
    _ = n * (2 : ℚ) ^ (e + 1) := by
        rw [zpow_add_one₀ (by norm_num : (2 : ℚ) ≠ 0)]
        ring
    _ ≤ n * (2 : ℚ) ^ f := by
        refine mul_le_mul_of_nonneg_left ?_ (Nat.cast_nonneg n)
        exact zpow_le_zpow_right₀ (by norm_num) h

/-- Two canonical pairs compare as their numbers do. -/
theorem Canonical.compare_eq {m n : ℕ} {e f : ℤ} (hm : Canonical m e) (hn : Canonical n f) :
    (compare e f).then (compare m n) =
      compare ((m : ℚ) * (2 : ℚ) ^ e) (n * (2 : ℚ) ^ f) := by
  rcases lt_trichotomy e f with h | rfl | h
  · rw [compare_lt_iff_lt.2 h, compare_lt_iff_lt.2 (hm.lt_of_exponent_lt hn h)]
    rfl
  · have hpow : (0 : ℚ) < 2 ^ e := by positivity
    rw [compare_eq_iff_eq.2 rfl, Ordering.eq_then]
    rcases lt_trichotomy m n with hmn | rfl | hmn
    · rw [compare_lt_iff_lt.2 hmn, compare_lt_iff_lt.2
        (mul_lt_mul_of_pos_right (by exact_mod_cast hmn) hpow)]
    · rw [compare_eq_iff_eq.2 rfl, compare_eq_iff_eq.2 rfl]
    · rw [compare_gt_iff_gt.2 hmn, compare_gt_iff_gt.2
        (mul_lt_mul_of_pos_right (by exact_mod_cast hmn) hpow)]
  · rw [compare_gt_iff_gt.2 h, compare_gt_iff_gt.2 (hn.lt_of_exponent_lt hm h)]
    rfl

private theorem swap_compare_neg (p q : ℚ) : (compare p q).swap = compare (-p) (-q) := by
  rcases lt_trichotomy p q with h | rfl | h
  · rw [compare_lt_iff_lt.2 h, compare_gt_iff_gt.2 (neg_lt_neg h)]
    rfl
  · rw [compare_eq_iff_eq.2 rfl, compare_eq_iff_eq.2 rfl]
    rfl
  · rw [compare_gt_iff_gt.2 h, compare_lt_iff_lt.2 (neg_lt_neg h)]
    rfl

/-- **Words compare as their numbers do.** -/
theorem compare_eq {u v : UnpackedFloat} (hu : Fits u) (hv : Fits v) (hfu : u.isFinite = true)
    (hfv : v.isFinite = true) :
    u.compare v = some (compare (unpackedValue u) (unpackedValue v)) := by
  cases u with
  | notANumber => cases hfu
  | infinity s => cases hfu
  | zero s =>
      cases v with
      | notANumber => cases hfv
      | infinity t => cases hfv
      | zero t => simp [UnpackedFloat.compare, unpackedValue]
      | finite t n f hn =>
          have hpos := magnitude_pos hn f
          cases t with
          | positive =>
              rw [unpackedValue_zero, unpackedValue_positive, compare_lt_iff_lt.2 hpos]
              rfl
          | negative =>
              rw [unpackedValue_zero, unpackedValue_negative,
                compare_gt_iff_gt.2 (neg_neg_of_pos hpos)]
              rfl
  | finite s m e hm =>
      have hpos := magnitude_pos hm e
      cases v with
      | notANumber => cases hfv
      | infinity t => cases hfv
      | zero t =>
          cases s with
          | positive =>
              rw [unpackedValue_zero, unpackedValue_positive, compare_gt_iff_gt.2 hpos]
              rfl
          | negative =>
              rw [unpackedValue_zero, unpackedValue_negative,
                compare_lt_iff_lt.2 (neg_neg_of_pos hpos)]
              rfl
      | finite t n f hn =>
          have hpos' := magnitude_pos hn f
          cases s with
          | positive =>
              cases t with
              | positive =>
                  rw [unpackedValue_positive, unpackedValue_positive, ← hu.1.compare_eq hv.1]
                  rfl
              | negative =>
                  rw [unpackedValue_positive, unpackedValue_negative,
                    compare_gt_iff_gt.2 ((neg_neg_of_pos hpos').trans hpos)]
                  rfl
          | negative =>
              cases t with
              | positive =>
                  rw [unpackedValue_positive, unpackedValue_negative,
                    compare_lt_iff_lt.2 ((neg_neg_of_pos hpos).trans hpos')]
                  rfl
              | negative =>
                  rw [unpackedValue_negative, unpackedValue_negative, ← swap_compare_neg,
                    ← hu.1.compare_eq hv.1]
                  rfl

theorem fits_model (x : Float) : Fits x.toModel.unpack :=
  fits_unpack _

/-- **Two finite words are equal as numbers** exactly when they stand for the same number. -/
theorem beq_iff {x y : Float} (hx : x.isFinite = true) (hy : y.isFinite = true) :
    (x == y) = true ↔ value x = value y := by
  have hcompare := compare_eq (fits_model x) (fits_model y) hx hy
  change (x.toModel.unpack.compare y.toModel.unpack == some .eq) = true ↔ _
  rw [hcompare, beq_iff_eq, Option.some_inj, compare_eq_iff_eq, value, value]

/-- **When two words are equal as numbers**: they stand for the same number, or are the same
infinity. -/
theorem beq_iff_value_or_infinity {x y : Float} :
    (x == y) = true ↔
      (x.isFinite = true ∧ y.isFinite = true ∧ value x = value y) ∨
        ∃ s, x.toModel.unpack = .infinity s ∧ y.toModel.unpack = .infinity s := by
  by_cases hfinite : x.isFinite = true ∧ y.isFinite = true
  · obtain ⟨hx, hy⟩ := hfinite
    have hx' : x.toModel.unpack.isFinite = true := hx
    rw [beq_iff hx hy]
    refine ⟨fun h => Or.inl ⟨hx, hy, h⟩, ?_⟩
    rintro (⟨-, -, h⟩ | ⟨s, hs, -⟩)
    · exact h
    · rw [hs] at hx'
      cases hx'
  · rw [or_iff_right fun h => hfinite ⟨h.1, h.2.1⟩]
    change ¬ (x.toModel.unpack.isFinite = true ∧ y.toModel.unpack.isFinite = true) at hfinite
    change (x.toModel.unpack.compare y.toModel.unpack == some .eq) = true ↔ _
    generalize x.toModel.unpack = u at hfinite ⊢
    generalize y.toModel.unpack = v at hfinite ⊢
    -- one of the two is no number or an infinity
    cases u with
    | notANumber => simp [UnpackedFloat.compare]
    | infinity s =>
        cases v with
        | infinity t => cases s <;> cases t <;> simp [UnpackedFloat.compare] <;> decide
        | _ => cases s <;> simp [UnpackedFloat.compare]
    | zero s =>
        cases v with
        | notANumber => simp [UnpackedFloat.compare]
        | infinity t => cases t <;> simp [UnpackedFloat.compare]
        | _ => exact absurd ⟨rfl, rfl⟩ hfinite
    | finite s m e hm =>
        cases v with
        | notANumber => simp [UnpackedFloat.compare]
        | infinity t => cases t <;> simp [UnpackedFloat.compare]
        | _ => exact absurd ⟨rfl, rfl⟩ hfinite

theorem lt_iff {x y : Float} (hx : x.isFinite = true) (hy : y.isFinite = true) :
    x < y ↔ value x < value y := by
  have hcompare := compare_eq (fits_model x) (fits_model y) hx hy
  change decide ((x.toModel.unpack.compare y.toModel.unpack == some .lt) = true) = true ↔ _
  rw [decide_eq_true_iff, hcompare, beq_iff_eq, Option.some_inj, compare_lt_iff_lt, value, value]

theorem beq_symm {x y : Float} (h : (x == y) = true) : (y == x) = true := by
  rw [beq_iff_value_or_infinity] at h ⊢
  rcases h with ⟨hx, hy, hvalue⟩ | ⟨s, hx, hy⟩
  · exact Or.inl ⟨hy, hx, hvalue.symm⟩
  · exact Or.inr ⟨s, hy, hx⟩

/-- What is equal to a finite word is finite. -/
theorem isFinite_of_beq {x y : Float} (hx : x.isFinite = true) (h : (x == y) = true) :
    y.isFinite = true := by
  rcases beq_iff_value_or_infinity.1 h with ⟨-, hy, -⟩ | ⟨s, hs, -⟩
  · exact hy
  · change x.toModel.unpack.isFinite = true at hx
    rw [hs] at hx
    cases hx

/-- **A word is equal to itself** exactly when it is a number or an infinity. -/
theorem beq_self_iff {x : Float} : (x == x) = true ↔ x.isNaN = false := by
  rw [beq_iff_value_or_infinity]
  change (x.toModel.unpack.isFinite = true ∧ x.toModel.unpack.isFinite = true ∧ _) ∨ _ ↔
    x.toModel.unpack.isNaN = false
  cases x.toModel.unpack <;> simp [UnpackedFloat.isFinite, UnpackedFloat.isNaN]

/-- What is equal to a word is a number or an infinity. -/
theorem isNaN_of_beq {x y : Float} (h : (x == y) = true) : y.isNaN = false := by
  rw [← beq_self_iff, beq_iff_value_or_infinity]
  rcases beq_iff_value_or_infinity.1 h with ⟨-, hy, -⟩ | ⟨s, -, hs⟩
  · exact Or.inl ⟨hy, hy, rfl⟩
  · exact Or.inr ⟨s, hs, hs⟩

end WeightedSat.Binary64
