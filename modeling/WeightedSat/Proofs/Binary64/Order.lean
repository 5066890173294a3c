import WeightedSat.Proofs.Binary64.Rounding

/-!
**Words on the number line.**

A word that is a number or an infinity has a place on the number line: that of its number, the
infinities standing where the next power of two would.  Words compare as their places do, and the
place of a sum is the exact sum, rounded and kept between the infinities.  So sums that overflow
need no separate argument: all that is used of addition is that its places keep their order, that
both signs are treated alike, and that a sum which has reached an infinity stays there.

Main definitions:

* `WeightedSat.Binary64.place`, `WeightedSat.Binary64.IsAt` — the place of a word;
* `WeightedSat.Binary64.addRounded` — **the place of a sum**.

Main results:

* `WeightedSat.Binary64.IsAt.le_iff`, `WeightedSat.Binary64.IsAt.lt_iff`,
  `WeightedSat.Binary64.IsAt.beq_iff` — words compare as their places do;
* `WeightedSat.Binary64.IsAt.add`, `WeightedSat.Binary64.IsAt.sub` — **sums and differences with a
  finite word are never without a place**;
* `WeightedSat.Binary64.addRounded_mono_left`, `WeightedSat.Binary64.addRounded_mono_right`,
  `WeightedSat.Binary64.addRounded_neg` — **the place of a sum keeps the order and the signs**;
* `WeightedSat.Binary64.IsAt.addRounded_zero`, `WeightedSat.Binary64.value_le_addRounded` — adding
  nothing stays in place, and adding to what is not negative goes up to what is added at least.
-/

set_option relaxedAutoImplicit false
set_option autoImplicit false

namespace WeightedSat.Binary64

open Float.Model Float.Model.UnpackedFloat

variable {p q r : ℚ}

/-! ### Places -/

/-- Where positive infinity stands: at the first power of two that no word holds. -/
def limit : ℚ := 2 ^ (1024 : ℤ)

theorem limit_pos : 0 < limit := by
  rw [limit]
  positivity

/-- The place of a number or an infinity; zero for what is neither. -/
def unpackedPlace : UnpackedFloat → ℚ
  | .infinity s => s.apply 1 * limit
  | u => unpackedValue u

/-- **The place of a word on the number line.** -/
def place (x : Float) : ℚ := unpackedPlace x.toModel.unpack

theorem unpackedPlace_of_isFinite {u : UnpackedFloat} (h : u.isFinite = true) :
    unpackedPlace u = unpackedValue u := by
  cases u with
  | infinity s => cases h
  | _ => rfl

/-- A canonical pair stands below positive infinity exactly when its exponent fits a word. -/
theorem Canonical.lt_limit {m : ℕ} {e : ℤ} (h : Canonical m e) (hmax : e ≤ 971) :
    (m : ℚ) * 2 ^ e < limit := by
  have hm : (m : ℚ) < 2 ^ (53 : ℤ) := by exact_mod_cast h.lt
  calc (m : ℚ) * 2 ^ e < 2 ^ (53 : ℤ) * 2 ^ e := mul_lt_mul_of_pos_right hm (by positivity)
    _ ≤ 2 ^ (53 : ℤ) * 2 ^ (971 : ℤ) := by
        refine mul_le_mul_of_nonneg_left ?_ (by positivity)
        exact zpow_le_zpow_right₀ (by norm_num) hmax
    _ = limit := by
        rw [limit, ← zpow_add₀ (by norm_num)]
        rfl

theorem Canonical.limit_le {m : ℕ} {e : ℤ} (h : Canonical m e) (hmax : 971 < e) :
    limit ≤ (m : ℚ) * 2 ^ e := by
  have hfull : 2 ^ 52 ≤ m := h.full.resolve_right (by omega)
  have hm : (2 : ℚ) ^ (52 : ℤ) ≤ m := by exact_mod_cast hfull
  calc limit = 2 ^ (52 : ℤ) * 2 ^ (972 : ℤ) := by
        rw [limit, ← zpow_add₀ (by norm_num)]
        rfl
    _ ≤ 2 ^ (52 : ℤ) * 2 ^ e := by
        refine mul_le_mul_of_nonneg_left ?_ (by positivity)
        exact zpow_le_zpow_right₀ (by norm_num) hmax
    _ ≤ m * 2 ^ e := mul_le_mul_of_nonneg_right hm (by positivity)

theorem abs_signed (s : Sign) (q : ℚ) : |(s.apply 1 : ℤ) * q| = |q| := by
  cases s with
  | positive => rw [Sign.apply, Int.cast_one, one_mul]
  | negative => rw [Sign.apply, Int.cast_neg, Int.cast_one, neg_one_mul, abs_neg]

/-- Finite words stand between the infinities. -/
theorem Fits.abs_lt_limit {u : UnpackedFloat} (h : Fits u) (hfinite : u.isFinite = true) :
    |unpackedValue u| < limit := by
  cases u with
  | notANumber => cases hfinite
  | infinity s => cases hfinite
  | zero s => simpa [unpackedValue_zero] using limit_pos
  | finite s m e hm =>
      rw [unpackedValue_finite, abs_signed, abs_of_pos (magnitude_pos hm e)]
      exact h.1.lt_limit h.2

theorem abs_value_lt_limit {x : Float} (h : x.isFinite = true) : |value x| < limit :=
  (fits_model x).abs_lt_limit h

/-- What is a number or an infinity is finite or an infinity. -/
theorem isFinite_or_infinity {u : UnpackedFloat} (h : u.isNaN = false) :
    u.isFinite = true ∨ ∃ s, u = .infinity s := by
  cases u with
  | notANumber => cases h
  | infinity s => exact Or.inr ⟨s, rfl⟩
  | _ => exact Or.inl rfl

theorem abs_unpackedPlace_le {u : UnpackedFloat} (h : Fits u) : |unpackedPlace u| ≤ limit := by
  cases u with
  | notANumber =>
      change |(0 : ℚ)| ≤ limit
      rw [abs_zero]
      exact limit_pos.le
  | infinity s => rw [unpackedPlace, abs_signed, abs_of_pos limit_pos]
  | zero s => exact (h.abs_lt_limit rfl).le
  | finite s m e hm => exact (h.abs_lt_limit rfl).le

/-! ### Comparing words -/

theorem compare_infinity {u : UnpackedFloat} (h : u.isFinite = true) :
    (infinity .positive).compare u = some .gt ∧ (infinity .negative).compare u = some .lt ∧
      u.compare (.infinity .positive) = some .lt ∧ u.compare (.infinity .negative) = some .gt := by
  cases u with
  | notANumber => cases h
  | infinity s => cases h
  | _ => exact ⟨rfl, rfl, rfl, rfl⟩

/-- **Words compare as their places do.** -/
theorem compare_eq_compare_place {u v : UnpackedFloat} (hu : Fits u) (hv : Fits v)
    (hnu : u.isNaN = false) (hnv : v.isNaN = false) :
    u.compare v = some (compare (unpackedPlace u) (unpackedPlace v)) := by
  have hpositive : unpackedPlace (.infinity .positive) = limit := by
    rw [unpackedPlace, Sign.apply, Int.cast_one, one_mul]
  have hnegative : unpackedPlace (.infinity .negative) = -limit := by
    rw [unpackedPlace, Sign.apply, Int.cast_neg, Int.cast_one, neg_one_mul]
  have hlimit : -limit < limit := by linarith [limit_pos]
  rcases isFinite_or_infinity hnu with hfu | ⟨s, rfl⟩
  · rw [unpackedPlace_of_isFinite hfu]
    rcases isFinite_or_infinity hnv with hfv | ⟨t, rfl⟩
    · rw [unpackedPlace_of_isFinite hfv, compare_eq hu hv hfu hfv]
    · obtain ⟨hlow, hhigh⟩ := abs_lt.1 (hu.abs_lt_limit hfu)
      obtain ⟨-, -, hbelow, habove⟩ := compare_infinity hfu
      cases t with
      | positive => rw [hpositive, compare_lt_iff_lt.2 hhigh, hbelow]
      | negative => rw [hnegative, compare_gt_iff_gt.2 hlow, habove]
  · rcases isFinite_or_infinity hnv with hfv | ⟨t, rfl⟩
    · rw [unpackedPlace_of_isFinite hfv]
      obtain ⟨hlow, hhigh⟩ := abs_lt.1 (hv.abs_lt_limit hfv)
      obtain ⟨habove, hbelow, -, -⟩ := compare_infinity hfv
      cases s with
      | positive => rw [hpositive, compare_gt_iff_gt.2 hhigh, habove]
      | negative => rw [hnegative, compare_lt_iff_lt.2 hlow, hbelow]
    · cases s with
      | positive =>
          cases t with
          | positive => rw [compare_eq_iff_eq.2 rfl]; rfl
          | negative => rw [hpositive, hnegative, compare_gt_iff_gt.2 hlimit]; rfl
      | negative =>
          cases t with
          | positive => rw [hpositive, hnegative, compare_lt_iff_lt.2 hlimit]; rfl
          | negative => rw [compare_eq_iff_eq.2 rfl]; rfl

/-- **A word that is a number or an infinity, and its place.** -/
structure IsAt (x : Float) (q : ℚ) : Prop where
  isNaN_eq : x.isNaN = false
  place_eq : place x = q

theorem isAt_place {x : Float} (h : x.isNaN = false) : IsAt x (place x) :=
  ⟨h, rfl⟩

theorem isNaN_of_isFinite {x : Float} (h : x.isFinite = true) : x.isNaN = false := by
  change x.toModel.unpack.isFinite = true at h
  change x.toModel.unpack.isNaN = false
  cases hx : x.toModel.unpack with
  | notANumber => rw [hx] at h; cases h
  | _ => rfl

theorem isAt_value {x : Float} (h : x.isFinite = true) : IsAt x (value x) :=
  ⟨isNaN_of_isFinite h, unpackedPlace_of_isFinite h⟩

/-- A word that has a place is finite and its number stands there, or it is an infinity. -/
theorem IsAt.value_or_infinity {x : Float} (h : IsAt x p) :
    x.isFinite = true ∧ value x = p ∨
      ∃ s, x.toModel.unpack = .infinity s ∧ p = s.apply 1 * limit := by
  rcases isFinite_or_infinity h.isNaN_eq with hfinite | ⟨s, hs⟩
  · exact Or.inl ⟨hfinite, by rw [← h.place_eq, (isAt_value hfinite).place_eq]⟩
  · exact Or.inr ⟨s, hs, by rw [← h.place_eq, place, hs, unpackedPlace]⟩

namespace IsAt

variable {x y w : Float}

theorem abs_le (h : IsAt x p) : |p| ≤ limit := by
  rw [← h.place_eq]
  exact abs_unpackedPlace_le (fits_model x)

theorem compare_eq (hx : IsAt x p) (hy : IsAt y q) :
    x.toModel.unpack.compare y.toModel.unpack = some (compare p q) := by
  rw [compare_eq_compare_place (fits_model x) (fits_model y) hx.isNaN_eq hy.isNaN_eq,
    ← hx.place_eq, ← hy.place_eq]
  rfl

theorem lt_iff (hx : IsAt x p) (hy : IsAt y q) : x < y ↔ p < q := by
  change decide ((x.toModel.unpack.compare y.toModel.unpack == some .lt) = true) = true ↔ _
  rw [decide_eq_true_iff, hx.compare_eq hy, beq_iff_eq, Option.some_inj, compare_lt_iff_lt]

theorem le_iff (hx : IsAt x p) (hy : IsAt y q) : x ≤ y ↔ p ≤ q := by
  change decide ((x.toModel.unpack.compare y.toModel.unpack).any (·.isLE) = true) = true ↔ _
  rw [decide_eq_true_iff, hx.compare_eq hy, Option.any_some, Ordering.isLE_iff_ne_gt, ← not_lt,
    ← compare_gt_iff_gt]

theorem beq_iff (hx : IsAt x p) (hy : IsAt y q) : (x == y) = true ↔ p = q := by
  change (x.toModel.unpack.compare y.toModel.unpack == some .eq) = true ↔ _
  rw [hx.compare_eq hy, beq_iff_eq, Option.some_inj, compare_eq_iff_eq]

end IsAt

/-! ### Signs -/

theorem unpackedPlace_neg (u : UnpackedFloat) : unpackedPlace u.neg = -unpackedPlace u := by
  have hsign : ∀ s : Sign, (((-s).apply 1 : ℤ) : ℚ) = -(s.apply 1 : ℤ) := by
    intro s
    have hinteger : (-s).apply 1 = -s.apply 1 := by cases s <;> rfl
    rw [hinteger, Int.cast_neg]
  cases u with
  | notANumber => exact neg_zero.symm
  | infinity s => simp only [UnpackedFloat.neg, unpackedPlace, hsign, neg_mul]
  | zero s => exact neg_zero.symm
  | finite s m e hm =>
      simp only [UnpackedFloat.neg, unpackedPlace, unpackedValue_finite, hsign, neg_mul]

theorem unpack_abs (x : Float) : x.abs.toModel.unpack = x.toModel.unpack.abs := by
  have hfits : Fits x.toModel.unpack.abs := by
    have hx := fits_model x
    cases hu : x.toModel.unpack with
    | finite s m e hm =>
        rw [hu] at hx
        exact hx
    | _ => trivial
  exact unpack_pack hfits

theorem unpackedPlace_abs (u : UnpackedFloat) : unpackedPlace u.abs = |unpackedPlace u| := by
  have hpositive : ((Sign.positive.apply 1 : ℤ) : ℚ) = 1 := by rw [Sign.apply, Int.cast_one]
  cases u with
  | notANumber => exact abs_zero.symm
  | infinity s =>
      simp only [UnpackedFloat.abs, unpackedPlace, abs_signed, abs_of_pos limit_pos, hpositive,
        one_mul]
  | zero s => exact abs_zero.symm
  | finite s m e hm =>
      simp only [UnpackedFloat.abs, unpackedPlace, unpackedValue_finite, abs_signed,
        abs_of_pos (magnitude_pos hm e), hpositive, one_mul]

theorem isNaN_neg (x : Float) : (-x).isNaN = x.isNaN := by
  change (-x).toModel.unpack.isNaN = x.toModel.unpack.isNaN
  rw [unpack_neg]
  cases x.toModel.unpack <;> rfl

theorem isNaN_abs (x : Float) : x.abs.isNaN = x.isNaN := by
  change x.abs.toModel.unpack.isNaN = x.toModel.unpack.isNaN
  rw [unpack_abs]
  cases x.toModel.unpack <;> rfl

theorem isFinite_neg (x : Float) : (-x).isFinite = x.isFinite := by
  change (-x).toModel.unpack.isFinite = x.toModel.unpack.isFinite
  rw [unpack_neg]
  cases x.toModel.unpack <;> rfl

theorem IsAt.neg {x : Float} (h : IsAt x p) : IsAt (-x) (-p) := by
  refine ⟨by rw [isNaN_neg, h.isNaN_eq], ?_⟩
  rw [place, unpack_neg, unpackedPlace_neg, ← h.place_eq, place]

theorem IsAt.abs {x : Float} (h : IsAt x p) : IsAt x.abs |p| := by
  refine ⟨by rw [isNaN_abs, h.isNaN_eq], ?_⟩
  rw [place, unpack_abs, unpackedPlace_abs, ← h.place_eq, place]

theorem value_neg {x : Float} (h : x.isFinite = true) : value (-x) = -value x := by
  have hneg : (-x).isFinite = true := by rw [isFinite_neg, h]
  rw [← (isAt_value hneg).place_eq, (isAt_value h).neg.place_eq]

/-! ### The place of a sum -/

/-- Keeps a number between the infinities. -/
def clamp (q : ℚ) : ℚ := max (-limit) (min q limit)

/-- **The place of a sum** with a finite number: rounded and kept between the infinities, where it
stays once it has got there. -/
def addRounded (p q : ℚ) : ℚ :=
  if limit ≤ |p| then p else clamp (nearest (p + q))

theorem clamp_mono (h : p ≤ q) : clamp p ≤ clamp q :=
  max_le_max_left _ (min_le_min_right _ h)

theorem clamp_neg (q : ℚ) : clamp (-q) = -clamp q := by
  have hlimit : -limit ≤ limit := by linarith [limit_pos]
  rw [clamp, clamp, max_min_distrib_left, max_eq_right hlimit, max_neg_neg, ← min_neg_neg,
    neg_neg, min_comm, min_comm q]

theorem abs_clamp_le (q : ℚ) : |clamp q| ≤ limit := by
  have hlimit : -limit ≤ limit := by linarith [limit_pos]
  exact abs_le.2 ⟨le_max_left _ _, max_le hlimit (min_le_right _ _)⟩

theorem clamp_eq_limit (h : limit ≤ q) : clamp q = limit := by
  have hlimit : -limit ≤ limit := by linarith [limit_pos]
  rw [clamp, min_eq_right h, max_eq_right hlimit]

theorem clamp_eq_self (h : |q| ≤ limit) : clamp q = q := by
  obtain ⟨hlow, hhigh⟩ := abs_le.1 h
  rw [clamp, min_eq_left hhigh, max_eq_right hlow]

theorem abs_addRounded_le (hp : |p| ≤ limit) (q : ℚ) : |addRounded p q| ≤ limit := by
  rw [addRounded]
  split
  · exact hp
  · exact abs_clamp_le _

/-- **Both signs are treated alike.** -/
theorem addRounded_neg (p q : ℚ) : addRounded (-p) (-q) = -addRounded p q := by
  rw [addRounded, addRounded, abs_neg]
  split
  · rfl
  · rw [← neg_add, nearest_neg, clamp_neg]

/-- **The place of a sum keeps the order** of what is added to. -/
theorem addRounded_mono_left (hp : |p| ≤ limit) (hr : |r| ≤ limit) (h : p ≤ r) (q : ℚ) :
    addRounded p q ≤ addRounded r q := by
  have hsum := abs_le.1 (abs_addRounded_le hr q)
  have hsum' := abs_le.1 (abs_addRounded_le hp q)
  by_cases hfinite : limit ≤ |p|
  · -- the lower one is infinite
    rcases abs_choice p with habs | habs
    · have heq : p = r := by linarith [le_abs_self r]
      rw [heq]
    · have hlow : addRounded p q = p := if_pos hfinite
      linarith
  · by_cases hfinite' : limit ≤ |r|
    · rcases abs_choice r with habs | habs
      · have hhigh : addRounded r q = r := if_pos hfinite'
        linarith
      · have heq : p = r := by linarith [neg_abs_le p]
        rw [heq]
    · rw [addRounded, addRounded, if_neg hfinite, if_neg hfinite']
      exact clamp_mono (nearest_mono (by linarith))

/-- **The place of a sum keeps the order** of what is added. -/
theorem addRounded_mono_right (p : ℚ) (h : q ≤ r) : addRounded p q ≤ addRounded p r := by
  rw [addRounded, addRounded]
  split
  · exact le_rfl
  · exact clamp_mono (nearest_mono (by linarith))

/-! ### Sums of words -/

theorem isAt_infinity (s : Sign) :
    IsAt (.ofModel (.pack (.infinity s))) (s.apply 1 * limit) := by
  have hread : (Float.ofModel (.pack (.infinity s))).toModel.unpack = .infinity s :=
    unpack_pack (u := .infinity s) trivial
  refine ⟨?_, ?_⟩
  · change (Float.ofModel (.pack (.infinity s))).toModel.unpack.isNaN = false
    rw [hread]
    rfl
  · rw [place, hread, unpackedPlace]

/-- A number whose exponent is too great is written as an infinity. -/
theorem pack_overflow {s : Sign} {m : ℕ} {e : ℤ} {hm : 0 < m} (h : 971 < e) :
    Float.Model.pack (.finite s m e hm) = .pack (.infinity s) := by
  have hbiased := biased_exponent_eq e
  have hover : 2 ^ Format.binary64.exponentBits ≤ (e + 1075).toNat + 1 := by
    change 2 ^ 11 ≤ (e + 1075).toNat + 1
    omega
  simp only [Float.Model.pack, UnpackedFloat.pack, hbiased, if_pos hover]

/-- What has been rounded is written as a word at its place, infinity where it is too large. -/
theorem IsRounded.isAt {u : UnpackedFloat} (h : IsRounded u) :
    IsAt (.ofModel (.pack u)) (clamp (unpackedValue u)) := by
  have hfits : ∀ hu : Fits u, u.isFinite = true →
      IsAt (.ofModel (.pack u)) (clamp (unpackedValue u)) := by
    intro hu hfinite
    have hread : (Float.ofModel (.pack u)).toModel.unpack = u := unpack_pack hu
    have hword : (Float.ofModel (.pack u)).isFinite = true := by
      change (Float.ofModel (.pack u)).toModel.unpack.isFinite = true
      rw [hread, hfinite]
    rw [clamp_eq_self (hu.abs_lt_limit hfinite).le]
    refine ⟨isNaN_of_isFinite hword, ?_⟩
    rw [(isAt_value hword).place_eq, value, hread]
  cases u with
  | notANumber => cases h
  | infinity s => cases h
  | zero s => exact hfits trivial rfl
  | finite s m e hm =>
      have hcanonical : Canonical m e := h
      rcases le_or_gt e 971 with hmax | hmax
      · exact hfits ⟨hcanonical, hmax⟩ rfl
      · rw [pack_overflow hmax, unpackedValue_finite, apply_signed clamp_neg,
          clamp_eq_limit (hcanonical.limit_le hmax)]
        exact isAt_infinity s

/-- **A sum with a finite word has a place.** -/
theorem IsAt.add {x w : Float} (hx : IsAt x p) (hw : w.isFinite = true) :
    IsAt (x + w) (addRounded p (value w)) := by
  have hw' : w.toModel.unpack.isFinite = true := hw
  rw [addRounded]
  rcases hx.value_or_infinity with ⟨hfinite, hvalue⟩ | ⟨s, hs, hinfinite⟩
  · have hrounds := rounds_add (fits_model x) (fits_model w) hfinite hw'
    have hat := hrounds.isRounded.isAt
    rw [hrounds.value_eq] at hat
    rw [← hvalue, if_neg (not_le.2 (abs_value_lt_limit hfinite))]
    exact hat
  · -- an infinity stays where it is
    have hsum : x + w = .ofModel (.pack (.infinity s)) := by
      change Float.ofModel (.pack (UnpackedFloat.add Format.binary64 x.toModel.unpack
        w.toModel.unpack)) = _
      rw [hs]
      cases hu : w.toModel.unpack with
      | notANumber => rw [hu] at hw'; cases hw'
      | infinity t => rw [hu] at hw'; cases hw'
      | _ => rfl
    rw [hsum, hinfinite, if_pos (by rw [abs_signed, abs_of_pos limit_pos])]
    exact isAt_infinity s

/-- Subtracting a word is adding its negative, whatever the words. -/
theorem sub_eq_add_neg_word (x y : Float) : x - y = x + -y := by
  change Float.ofModel (.pack (UnpackedFloat.sub Format.binary64 x.toModel.unpack
    y.toModel.unpack)) = Float.ofModel (.pack (UnpackedFloat.add Format.binary64 x.toModel.unpack
    (-y).toModel.unpack))
  rw [unpackedSub_eq, unpack_neg]

/-- **A difference with a finite word has a place.** -/
theorem IsAt.sub {x w : Float} (hx : IsAt x p) (hw : w.isFinite = true) :
    IsAt (x - w) (addRounded p (-value w)) := by
  rw [sub_eq_add_neg_word, ← value_neg hw]
  exact hx.add (by rw [isFinite_neg, hw])

/-- The numbers of words are not moved by rounding. -/
theorem clamp_nearest_value {x : Float} (h : x.isFinite = true) :
    clamp (nearest (value x)) = value x := by
  have hrounds := ((fits_model x).rounds h).value_eq
  change value x = nearest (value x) at hrounds
  rw [← hrounds]
  exact clamp_eq_self (isAt_value h).abs_le

/-- Adding nothing stays in place. -/
theorem IsAt.addRounded_zero {x : Float} (h : IsAt x p) : addRounded p 0 = p := by
  rw [addRounded, add_zero]
  rcases h.value_or_infinity with ⟨hfinite, rfl⟩ | ⟨s, -, rfl⟩
  · rw [if_neg (not_le.2 (abs_value_lt_limit hfinite)), clamp_nearest_value hfinite]
  · rw [if_pos (by rw [abs_signed, abs_of_pos limit_pos])]

/-- A sum whose first part is not negative is at least its second part. -/
theorem value_le_addRounded {w : Float} (hw : w.isFinite = true) (hp : 0 ≤ p)
    (hlimit : |p| ≤ limit) : value w ≤ addRounded p (value w) := by
  have hzero : |(0 : ℚ)| ≤ limit := by
    rw [abs_zero]
    exact limit_pos.le
  have hsum : addRounded 0 (value w) = value w := by
    rw [addRounded, abs_zero, if_neg (not_le.2 limit_pos), zero_add]
    exact clamp_nearest_value hw
  calc value w = addRounded 0 (value w) := hsum.symm
    _ ≤ addRounded p (value w) := addRounded_mono_left hzero hlimit hp (value w)

end WeightedSat.Binary64
