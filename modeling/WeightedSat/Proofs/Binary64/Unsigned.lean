import WeightedSat.Proofs.Binary64.Remainders
import WeightedSat.Proofs.Extremes

/-!
**Words that are told apart by their places.**

Comparing words does not tell the two zeros apart, so the larger and the smaller of two words can
depend on which of them comes first.  Where negative zero does not occur it cannot: words that are
not below zero and not negative zero are the same, bit for bit, as soon as they stand at the same
place.  For such words the larger and the smaller do not depend on order or grouping, positive zero
does not count for the one, and infinity not for the other.

Main definitions:

* `WeightedSat.Binary64.IsUnsigned` — **positive zero, the positive numbers and infinity**;
* `WeightedSat.Binary64.ChoosesBy` — choices of one of two words that go by their places.

Main results:

* `WeightedSat.Binary64.IsUnsigned.eq_of_place_eq` — **such words are determined by their places**;
* `WeightedSat.Binary64.IsUnsigned.add` — adding a positive number does not leave them;
* `WeightedSat.Binary64.ChoosesBy.assoc`, `WeightedSat.Binary64.ChoosesBy.foldl_eq_of_perm` —
  **choices between such words depend neither on grouping nor on order**.
-/

set_option relaxedAutoImplicit false
set_option autoImplicit false

namespace WeightedSat

namespace Binary64

open Float.Model Float.Model.UnpackedFloat

variable {x y z w : Float} {p q : ℚ}

/-- **Positive zero, the positive numbers and infinity.** -/
structure IsUnsigned (x : Float) : Prop where
  isNaN_eq : x.isNaN = false
  nonneg : 0 ≤ place x
  ne_zero : x.toModel.unpack ≠ .zero .negative

/-! ### Which words they are -/

/-- Words above zero are unsigned. -/
theorem IsAt.isUnsigned (h : IsAt x p) (hp : 0 < p) : IsUnsigned x := by
  refine ⟨h.isNaN_eq, ?_, ?_⟩
  · rw [h.place_eq]
    exact hp.le
  · intro hzero
    rw [← h.place_eq, place, hzero] at hp
    exact lt_irrefl 0 hp

theorem isUnsigned_zero : IsUnsigned 0.0 :=
  ⟨isAt_zero.isNaN_eq, isAt_zero.place_eq.ge, fun h => by
    change UnpackedFloat.zero .positive = .zero .negative at h
    cases h⟩

theorem isUnsigned_infinity : IsUnsigned Decimal.infinity :=
  Weight.isAt_infinity.isUnsigned limit_pos

theorem IsWeight.isUnsigned (h : IsWeight p x) : IsUnsigned x :=
  (isAt_value h.isFinite).isUnsigned h.pos

/-- **Adding a positive number** to an unsigned word gives one. -/
theorem IsUnsigned.add (hx : IsUnsigned x) (hw : w.isFinite = true) (hpos : 0 < value w) :
    IsUnsigned (x + w) := by
  have hat := isAt_place hx.isNaN_eq
  exact (hat.add hw).isUnsigned
    (hpos.trans_le (value_le_addRounded hw hx.nonneg hat.abs_le))

/-- Sums of positive numbers are unsigned, also where there is nothing to add. -/
theorem isUnsigned_total {ws : List Float} (hws : ∀ w ∈ ws, w.isFinite = true ∧ 0 < value w) :
    IsUnsigned (Weight.total ws) := by
  suffices h : ∀ x, IsUnsigned x → IsUnsigned (ws.foldl (· + ·) x) from h 0.0 isUnsigned_zero
  induction ws with
  | nil => exact fun x hx => hx
  | cons w ws ih =>
      intro x hx
      obtain ⟨⟨hfinite, hpos⟩, hrest⟩ := List.forall_mem_cons.1 hws
      exact ih hrest (x + w) (hx.add hfinite hpos)

/-! ### Places -/

/-- A finite word that stands for zero is one of the two zeros. -/
theorem exists_zero_of_value_eq (hx : x.isFinite = true) (h : value x = 0) :
    ∃ s, x.toModel.unpack = .zero s := by
  change x.toModel.unpack.isFinite = true at hx
  rw [value] at h
  cases hu : x.toModel.unpack with
  | notANumber => rw [hu] at hx; cases hx
  | infinity s => rw [hu] at hx; cases hx
  | zero s => exact ⟨s, rfl⟩
  | finite s m e hm =>
      have habs := abs_signed s (m * (2 : ℚ) ^ e)
      rw [hu, unpackedValue_finite] at h
      rw [h, abs_zero, abs_of_pos (magnitude_pos hm e)] at habs
      exact absurd habs (magnitude_pos hm e).ne

/-- **Unsigned words are determined by their places.** -/
theorem IsUnsigned.eq_of_place_eq (hx : IsUnsigned x) (hy : IsUnsigned y)
    (h : place x = place y) : x = y := by
  have hbeq := ((isAt_place hx.isNaN_eq).beq_iff (isAt_place hy.isNaN_eq)).2 h
  suffices hread : x.toModel.unpack = y.toModel.unpack by
    rw [← ofModel_pack_unpack x, hread, ofModel_pack_unpack]
  rcases beq_iff_value_or_infinity.1 hbeq with ⟨hfx, hfy, hvalue⟩ | ⟨s, hsx, hsy⟩
  · have hnonneg := hx.nonneg
    rw [(isAt_value hfx).place_eq] at hnonneg
    rcases hnonneg.eq_or_lt with hzero | hpos
    · obtain ⟨s, hs⟩ := exists_zero_of_value_eq hfx hzero.symm
      obtain ⟨t, ht⟩ := exists_zero_of_value_eq hfy (hvalue.symm.trans hzero.symm)
      -- of the two zeros only the positive one is left
      have hneg := hx.ne_zero
      have hneg' := hy.ne_zero
      rw [hs] at hneg
      rw [ht] at hneg'
      rw [hs, ht]
      cases s <;> cases t <;> simp_all
    · have hdenotes : Denotes x (value x) := ⟨hfx, rfl⟩
      rw [hdenotes.eq_of_pos ⟨hfy, hvalue.symm⟩ hpos]
  · rw [hsx, hsy]

/-! ### Extremes -/

/-- **The smaller of two words has the lower place.** -/
theorem IsAt.smaller (hx : IsAt x p) (hy : IsAt y q) : IsAt (Weight.smaller x y) (min p q) := by
  rw [Weight.smaller, hy.isNaN_eq, if_neg Bool.false_ne_true]
  split
  · rename_i hlt
    rw [min_eq_left ((hx.lt_iff hy).1 hlt).le]
    exact hx
  · rename_i hnot
    rw [min_eq_right (not_lt.1 (mt (hx.lt_iff hy).2 hnot))]
    exact hy

/-- **A choice of one of two words** that goes by their places: by an operation on numbers that
picks one of the two. -/
structure ChoosesBy (pick : Float → Float → Float) (op : ℚ → ℚ → ℚ) : Prop where
  eq_or : ∀ x y, pick x y = x ∨ pick x y = y
  isAt : ∀ {x y p q}, IsAt x p → IsAt y q → IsAt (pick x y) (op p q)

theorem choosesBy_larger : ChoosesBy Weight.larger max :=
  ⟨Weight.larger_eq_or, IsAt.larger⟩

theorem choosesBy_smaller : ChoosesBy Weight.smaller min :=
  ⟨Weight.smaller_eq_or, IsAt.smaller⟩

namespace ChoosesBy

variable {pick : Float → Float → Float} {op : ℚ → ℚ → ℚ}

theorem place_eq (h : ChoosesBy pick op) (hx : IsUnsigned x) (hy : IsUnsigned y) :
    place (pick x y) = op (place x) (place y) :=
  (h.isAt (isAt_place hx.isNaN_eq) (isAt_place hy.isNaN_eq)).place_eq

theorem isUnsigned (h : ChoosesBy pick op) (hx : IsUnsigned x) (hy : IsUnsigned y) :
    IsUnsigned (pick x y) := by
  rcases h.eq_or x y with heq | heq
  · rwa [heq]
  · rwa [heq]

/-- **A choice does not depend on grouping.** -/
theorem assoc [Std.Associative op] (h : ChoosesBy pick op) (hx : IsUnsigned x)
    (hy : IsUnsigned y) (hz : IsUnsigned z) : pick (pick x y) z = pick x (pick y z) := by
  have hxy := h.isUnsigned hx hy
  have hyz := h.isUnsigned hy hz
  refine (h.isUnsigned hxy hz).eq_of_place_eq (h.isUnsigned hx hyz) ?_
  rw [h.place_eq hxy hz, h.place_eq hx hyz, h.place_eq hx hy, h.place_eq hy hz,
    ‹Std.Associative op›.assoc]

theorem eq_left (h : ChoosesBy pick op) (hx : IsUnsigned x) (hy : IsUnsigned y)
    (hop : op (place x) (place y) = place x) : pick x y = x := by
  refine (h.isUnsigned hx hy).eq_of_place_eq hx ?_
  rw [h.place_eq hx hy, hop]

theorem eq_right (h : ChoosesBy pick op) (hx : IsUnsigned x) (hy : IsUnsigned y)
    (hop : op (place x) (place y) = place y) : pick x y = y := by
  refine (h.isUnsigned hx hy).eq_of_place_eq hy ?_
  rw [h.place_eq hx hy, hop]

/-- **What is chosen from many words**, and where it stands. -/
theorem foldl (h : ChoosesBy pick op) (hx : IsUnsigned x) {ws : List Float}
    (hws : ∀ w ∈ ws, IsUnsigned w) :
    IsUnsigned (ws.foldl pick x) ∧ place (ws.foldl pick x) = (ws.map place).foldl op (place x) := by
  induction ws generalizing x with
  | nil => exact ⟨hx, rfl⟩
  | cons w ws ih =>
      obtain ⟨hw, hrest⟩ := List.forall_mem_cons.1 hws
      rw [List.foldl_cons, List.map_cons, List.foldl_cons, ← h.place_eq hx hw]
      exact ih (h.isUnsigned hx hw) hrest

/-- **What is chosen from many words does not depend on their order.** -/
theorem foldl_eq_of_perm [Std.Associative op] [Std.Commutative op] (h : ChoosesBy pick op)
    (hx : IsUnsigned x) {ws vs : List Float} (hws : ∀ w ∈ ws, IsUnsigned w) (hperm : ws.Perm vs) :
    ws.foldl pick x = vs.foldl pick x := by
  obtain ⟨hunsigned, hplace⟩ := h.foldl hx hws
  obtain ⟨hunsigned', hplace'⟩ := h.foldl hx fun v hv => hws v (hperm.mem_iff.2 hv)
  refine hunsigned.eq_of_place_eq hunsigned' ?_
  rw [hplace, hplace', (hperm.map place).foldl_op_eq]

end ChoosesBy

/-- Zero does not count for the largest. -/
theorem IsUnsigned.larger_zero (hx : IsUnsigned x) :
    Weight.larger x 0.0 = x ∧ Weight.larger 0.0 x = x := by
  have hzero : place 0.0 = 0 := isAt_zero.place_eq
  refine ⟨choosesBy_larger.eq_left hx isUnsigned_zero ?_,
    choosesBy_larger.eq_right isUnsigned_zero hx ?_⟩
  · rw [hzero, max_eq_left hx.nonneg]
  · rw [hzero, max_eq_right hx.nonneg]

/-- Infinity does not count for the smallest. -/
theorem IsUnsigned.smaller_infinity (hx : IsUnsigned x) :
    Weight.smaller x Decimal.infinity = x ∧ Weight.smaller Decimal.infinity x = x := by
  have hinfinity : place Decimal.infinity = limit := Weight.isAt_infinity.place_eq
  have hle : place x ≤ limit := (le_abs_self _).trans (isAt_place hx.isNaN_eq).abs_le
  refine ⟨choosesBy_smaller.eq_left hx isUnsigned_infinity ?_,
    choosesBy_smaller.eq_right isUnsigned_infinity hx ?_⟩
  · rw [hinfinity, min_eq_left hle]
  · rw [hinfinity, min_eq_right hle]

/-- **The smallest of weights is no greater than any of them.** -/
theorem value_foldl_smaller_le {ws : List Float} (hws : ∀ w ∈ ws, IsWeight p w) (hw : w ∈ ws) :
    value (ws.foldl Weight.smaller Decimal.infinity) ≤ value w := by
  have hfold := hws _ (Weight.foldl_smaller_infinity_mem (List.ne_nil_of_mem hw)
    fun v hv => (hws v hv).isFinite)
  obtain ⟨-, hplace⟩ :=
    choosesBy_smaller.foldl isUnsigned_infinity fun v hv => (hws v hv).isUnsigned
  rw [← (isAt_value hfold.isFinite).place_eq, ← (isAt_value (hws w hw).isFinite).place_eq, hplace]
  -- the least of numbers is the greatest in the opposite order
  exact ((@Encoding.foldl_max_le_iff ℚᵒᵈ _ _ (place Decimal.infinity) _).1 le_rfl).2 _
    (List.mem_map_of_mem hw)

end Binary64

end WeightedSat
