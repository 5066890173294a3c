import WeightedSat.Proofs.Binary64.Sums
import WeightedSat.Proofs.Encoding

/-!
**The greatest and the smallest of weights.**

The extremes of a list are found by comparing its members one after the other, so an extreme is
itself a member: nothing is computed that was not there.  The smallest is looked for from infinity
on, which stands above every finite weight and gives way to the first.

Main results:

* `WeightedSat.Weight.foldl_mem_cons` — **an extreme is a member**;
* `WeightedSat.Weight.foldl_smaller_infinity_mem` — so is the smallest, if there is any weight;
* `WeightedSat.Encoding.exists_greatest` — **the greatest weight of clauses** is that of one of
  them, and no other exceeds it.
-/

set_option relaxedAutoImplicit false
set_option autoImplicit false

namespace WeightedSat

open Binary64

namespace Weight

theorem larger_eq_or (x y : Float) : larger x y = x ∨ larger x y = y := by
  rw [larger]
  split
  · exact Or.inl rfl
  · split
    · exact Or.inl rfl
    · exact Or.inr rfl

theorem smaller_eq_or (x y : Float) : smaller x y = x ∨ smaller x y = y := by
  rw [smaller]
  split
  · exact Or.inl rfl
  · split
    · exact Or.inl rfl
    · exact Or.inr rfl

/-- **What picks one of two picks one of many.** -/
theorem foldl_mem_cons {α : Type} {pick : α → α → α} (hpick : ∀ x y, pick x y = x ∨ pick x y = y)
    (x : α) (xs : List α) : xs.foldl pick x ∈ x :: xs := by
  induction xs generalizing x with
  | nil => exact List.mem_cons_self
  | cons y ys ih =>
      rw [List.foldl_cons]
      rcases hpick x y with h | h
      · rw [h]
        exact List.cons_subset_cons x (List.subset_cons_self y ys) (ih x)
      · rw [h]
        exact List.mem_cons_of_mem x (ih y)

theorem isAt_infinity : IsAt Decimal.infinity limit := by
  have hread : Decimal.infinity.toModel.unpack = .infinity .positive := rfl
  refine ⟨rfl, ?_⟩
  rw [place, hread, unpackedPlace, Float.Model.UnpackedFloat.Sign.apply, Int.cast_one, one_mul]

/-- A finite weight is smaller than infinity. -/
theorem smaller_infinity {w : Float} (hw : w.isFinite = true) : smaller Decimal.infinity w = w := by
  have hat := isAt_value hw
  have hnot : ¬ Decimal.infinity < w := by
    rw [isAt_infinity.lt_iff hat]
    exact not_lt.2 ((le_abs_self _).trans hat.abs_le)
  rw [smaller, hat.isNaN_eq, if_neg Bool.false_ne_true, if_neg hnot]

/-- **The smallest of finite weights is one of them**: infinity only stands where there is none. -/
theorem foldl_smaller_infinity_mem {ws : List Float} (hne : ws ≠ [])
    (hws : ∀ w ∈ ws, w.isFinite = true) : ws.foldl smaller Decimal.infinity ∈ ws := by
  obtain ⟨w, vs, rfl⟩ := List.exists_cons_of_ne_nil hne
  rw [List.foldl_cons, smaller_infinity (hws w List.mem_cons_self)]
  exact foldl_mem_cons smaller_eq_or w vs

end Weight

namespace Encoding

/-- **The greatest weight is a weight.** -/
theorem greatest_mem {ws : List Float} (hne : ws ≠ []) : greatest ws ∈ ws := by
  obtain ⟨w, vs, rfl⟩ := List.exists_cons_of_ne_nil hne
  exact Weight.foldl_mem_cons Weight.larger_eq_or w vs

/-- **No weight exceeds the greatest.** -/
theorem le_greatest {ws : List Float} (hws : ∀ w ∈ ws, w.isNaN = false) {w : Float} (hw : w ∈ ws) :
    w ≤ greatest ws := by
  obtain ⟨v, vs, rfl⟩ := List.exists_cons_of_ne_nil (List.ne_nil_of_mem hw)
  obtain ⟨hv, hvs⟩ := List.forall_mem_cons.1 hws
  have hgreatest : IsAt (greatest (v :: vs)) ((vs.map place).foldl max (place v)) :=
    (isAt_place hv).foldl_larger hvs
  obtain ⟨hfirst, hrest⟩ := foldl_max_le_iff.1 (le_refl ((vs.map place).foldl max (place v)))
  rw [(isAt_place (hws w hw)).le_iff hgreatest]
  rcases List.mem_cons.1 hw with rfl | hw
  · exact hfirst
  · exact hrest _ (List.mem_map_of_mem hw)

/-- **The greatest weight of clauses** is that of one of them. -/
theorem exists_greatest {active : List Clause} (hne : active ≠ [])
    (hactive : ∀ c ∈ active, c.weight.isFinite = true) :
    ∃ c ∈ active, c.weight = greatest (active.map (·.weight)) ∧
      ∀ d ∈ active, d.weight ≤ c.weight := by
  obtain ⟨c, hc, hweight⟩ := List.mem_map.1 (greatest_mem (mt List.map_eq_nil_iff.1 hne))
  refine ⟨c, hc, hweight, ?_⟩
  intro d hd
  rw [hweight]
  refine le_greatest ?_ (List.mem_map_of_mem hd)
  rw [List.forall_mem_map]
  exact fun d hd => isNaN_of_isFinite (hactive d hd)

end Encoding

end WeightedSat
