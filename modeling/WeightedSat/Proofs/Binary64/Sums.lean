import WeightedSat.Proofs.Binary64.Order
import WeightedSat.Weight

/-!
**Ordered sums of words, and the largest of them.**

A sum of many words is rounded after every addition, so it is no sum of numbers, and sums over
different lists are rounded at different points.  What survives is order: a list that has more to
add at every position ends no lower.  Positions where nothing is added count as zero, which makes
sums over different sublists comparable, absorption and overflow included.

Main definitions:

* `WeightedSat.Binary64.share` — what a position adds, zero where it adds nothing;
* `WeightedSat.Binary64.sumRounded` — **the place of an ordered sum**.

Main results:

* `WeightedSat.Binary64.IsAt.foldl_filterMap` — ordered sums of finite words have a place;
* `WeightedSat.Binary64.sumRounded_mono` — **a sum that adds more ends no lower**;
* `WeightedSat.Binary64.sumRounded_neg` — the negatives add up to the negative;
* `WeightedSat.Binary64.value_le_sumRounded` — a sum of what is not negative is at least each part;
* `WeightedSat.Binary64.IsAt.larger`, `WeightedSat.Binary64.IsAt.foldl_larger` — the largest of
  words has the greatest place.
-/

set_option relaxedAutoImplicit false
set_option autoImplicit false

namespace WeightedSat.Binary64

variable {α : Type} {p q r : ℚ} {x y : Float}

/-! ### Ordered sums -/

/-- What one position adds to a sum: the number of its word, zero where there is none. -/
def share (w? : Option Float) : ℚ :=
  w?.elim 0 value

/-- **The place of an ordered sum** of finite words. -/
def sumRounded (p : ℚ) (qs : List ℚ) : ℚ :=
  qs.foldl addRounded p

theorem sumRounded_cons (p q : ℚ) (qs : List ℚ) :
    sumRounded p (q :: qs) = sumRounded (addRounded p q) qs := rfl

theorem sumRounded_append (p : ℚ) (qs rs : List ℚ) :
    sumRounded p (qs ++ rs) = sumRounded (sumRounded p qs) rs :=
  List.foldl_append

/-- **Ordered sums of finite words have a place**: a position without a word does not move it. -/
theorem IsAt.foldl_filterMap {f : α → Option Float} {items : List α}
    (hf : ∀ a ∈ items, ∀ w, f a = some w → w.isFinite = true) (hx : IsAt x p) :
    IsAt ((items.filterMap f).foldl (· + ·) x) (sumRounded p (items.map fun a => share (f a))) := by
  induction items generalizing x p with
  | nil => exact hx
  | cons a items ih =>
      have hrest : ∀ b ∈ items, ∀ w, f b = some w → w.isFinite = true :=
        fun b hb => hf b (List.mem_cons_of_mem a hb)
      rw [List.filterMap_cons, List.map_cons, sumRounded_cons]
      cases ha : f a with
      | none =>
          have hstay : addRounded p (share none) = p := hx.addRounded_zero
          rw [hstay]
          exact ih hrest hx
      | some w =>
          exact ih hrest (hx.add (hf a List.mem_cons_self w ha))

theorem abs_sumRounded_le (hp : |p| ≤ limit) (qs : List ℚ) : |sumRounded p qs| ≤ limit := by
  induction qs generalizing p with
  | nil => exact hp
  | cons q qs ih => exact ih (abs_addRounded_le hp q)

/-- **A sum that adds more ends no lower**, whatever is rounded on the way. -/
theorem sumRounded_mono {f g : α → ℚ} {items : List α} (hfg : ∀ a ∈ items, f a ≤ g a)
    (hp : |p| ≤ limit) (hr : |r| ≤ limit) (h : p ≤ r) :
    sumRounded p (items.map f) ≤ sumRounded r (items.map g) := by
  induction items generalizing p r with
  | nil => exact h
  | cons a items ih =>
      have hstep : addRounded p (f a) ≤ addRounded r (g a) :=
        (addRounded_mono_left hp hr h (f a)).trans
          (addRounded_mono_right r (hfg a List.mem_cons_self))
      exact ih (fun b hb => hfg b (List.mem_cons_of_mem a hb)) (abs_addRounded_le hp _)
        (abs_addRounded_le hr _) hstep

/-- **The negatives add up to the negative.** -/
theorem sumRounded_neg (p : ℚ) (qs : List ℚ) :
    sumRounded (-p) (qs.map (- ·)) = -sumRounded p qs := by
  induction qs generalizing p with
  | nil => rfl
  | cons q qs ih =>
      rw [List.map_cons, sumRounded_cons, sumRounded_cons, addRounded_neg]
      exact ih (addRounded p q)

/-- Adding what is not negative never comes down to a word that has been passed. -/
theorem IsAt.le_sumRounded (hx : IsAt x p) (hr : |r| ≤ limit) (h : p ≤ r) {qs : List ℚ}
    (hqs : ∀ q ∈ qs, 0 ≤ q) : p ≤ sumRounded r qs := by
  induction qs generalizing r with
  | nil => exact h
  | cons q qs ih =>
      have hstep : p ≤ addRounded r q :=
        calc p = addRounded p 0 := hx.addRounded_zero.symm
          _ ≤ addRounded r 0 := addRounded_mono_left hx.abs_le hr h 0
          _ ≤ addRounded r q := addRounded_mono_right r (hqs q List.mem_cons_self)
      exact ih (abs_addRounded_le hr q) hstep fun q' hq' => hqs q' (List.mem_cons_of_mem q hq')

theorem isAt_zero : IsAt 0.0 0 := by
  have hat := isAt_value denotes_zero.isFinite
  rwa [denotes_zero.value_eq] at hat

theorem isAt_negativeZero : IsAt (-0.0) 0 := by
  have hat := isAt_zero.neg
  rwa [neg_zero] at hat

/-- **A sum of what is not negative is at least each part.** -/
theorem value_le_sumRounded {f : α → Option Float} {items : List α} {a : α} {w : Float}
    (ha : a ∈ items) (hw : f a = some w) (hfinite : w.isFinite = true)
    (hf : ∀ b ∈ items, 0 ≤ share (f b)) :
    value w ≤ sumRounded 0 (items.map fun b => share (f b)) := by
  obtain ⟨before, after, rfl⟩ := List.append_of_mem ha
  have hbefore : ∀ q ∈ before.map fun b => share (f b), 0 ≤ q := by
    intro q hq
    obtain ⟨b, hb, rfl⟩ := List.mem_map.1 hq
    exact hf b (List.mem_append_left _ hb)
  have hafter : ∀ q ∈ after.map fun b => share (f b), 0 ≤ q := by
    intro q hq
    obtain ⟨b, hb, rfl⟩ := List.mem_map.1 hq
    exact hf b (List.mem_append_right _ (List.mem_cons_of_mem a hb))
  have hlimit := abs_sumRounded_le isAt_zero.abs_le (before.map fun b => share (f b))
  have hreached := value_le_addRounded hfinite
    (isAt_zero.le_sumRounded isAt_zero.abs_le le_rfl hbefore) hlimit
  have hshare : share (f a) = value w := by rw [hw, share, Option.elim_some]
  rw [List.map_append, List.map_cons, sumRounded_append, sumRounded_cons, hshare]
  exact (isAt_value hfinite).le_sumRounded (abs_addRounded_le hlimit _) hreached hafter

/-! ### The largest -/

/-- **The larger of two words has the greater place.** -/
theorem IsAt.larger (hx : IsAt x p) (hy : IsAt y q) : IsAt (Weight.larger x y) (max p q) := by
  rw [Weight.larger, hy.isNaN_eq, if_neg Bool.false_ne_true]
  split
  · rename_i hlt
    rw [max_eq_left ((hy.lt_iff hx).1 hlt).le]
    exact hx
  · rename_i hnot
    rw [max_eq_right (not_lt.1 (mt (hy.lt_iff hx).2 hnot))]
    exact hy

/-- **The largest of many words has the greatest place.** -/
theorem IsAt.foldl_larger (hx : IsAt x p) {ws : List Float} (hws : ∀ w ∈ ws, w.isNaN = false) :
    IsAt (ws.foldl Weight.larger x) ((ws.map place).foldl max p) := by
  induction ws generalizing x p with
  | nil => exact hx
  | cons w ws ih =>
      rw [List.foldl_cons, List.map_cons, List.foldl_cons]
      exact ih (hx.larger (isAt_place (hws w List.mem_cons_self)))
        fun v hv => hws v (List.mem_cons_of_mem w hv)

end WeightedSat.Binary64
