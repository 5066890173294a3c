import Mathlib.Logic.Relation
import WeightedSat.Bounds
import WeightedSat.Proofs.Binary64.Remainders
import WeightedSat.Proofs.Extremes

/-!
**Cancelling weights, round by round.**

The smallest change of price is estimated by letting the greatest weights of both sides meet.  A
round takes both away and puts one weight back: their difference, on the side of the greater one, or
one of the two where they are equal.  This module states the rounds as steps in terms of the numbers
of the weights, shows that the computation goes through them until one side has nothing left, and
that all weights it meets, remainders included, are positive and no greater than the greatest weight
there was at first.

Main definitions:

* `WeightedSat.Bounds.Cancellation` — what is left on both sides, with the smallest remainder;
* `WeightedSat.Bounds.Cancellation.Step` — **one round**;
* `WeightedSat.Bounds.Cancellation.Within` — all weights are positive and within a bound;
* `WeightedSat.Bounds.Sides.start` — the weights of a variable before the first round.

Main results:

* `WeightedSat.Bounds.Cancellation.exists_run` — **the computation is a run of rounds**, to the end;
* `WeightedSat.Bounds.Cancellation.Step.within`, `WeightedSat.Bounds.Cancellation.Within.run` — a
  round, and a run, keep the weights positive and within their bound;
* `WeightedSat.Bounds.Sides.smallest_cases` — the smallest change is a weight or a remainder;
* `WeightedSat.Bounds.Sides.isWeight_smallest` — **the smallest change of a variable** is positive,
  and no greater than the weights it is made of.
-/

set_option relaxedAutoImplicit false
set_option autoImplicit false

namespace WeightedSat

open Binary64

/-! ### Lists in descending order -/

namespace Weight

theorem perm_insertDescending (x : Float) (ys : List Float) :
    (insertDescending x ys).Perm (x :: ys) := by
  induction ys with
  | nil => exact .refl _
  | cons y ys ih =>
      rw [insertDescending]
      split
      · exact (ih.cons y).trans (.swap x y ys)
      · exact .refl _

theorem perm_descending (weights : List Float) : (descending weights).Perm weights := by
  induction weights with
  | nil => exact .refl _
  | cons w ws ih => exact (perm_insertDescending w (descending ws)).trans (ih.cons w)

end Weight

namespace Bounds

/-! ### Rounds -/

/-- A cancellation under way. -/
structure Cancellation where
  /-- What is left on the positive side, from the greatest to the least. -/
  positive : List Float
  /-- What is left on the negative side. -/
  negative : List Float
  /-- The smallest remainder so far. -/
  best : Option Float

namespace Cancellation

/-- **One round**: the two greatest weights meet, and one weight goes back. -/
inductive Step : Cancellation → Cancellation → Prop
  /-- The positive side has the greater weight, and gets the remainder. -/
  | toPositive {x y : Float} {xs ys : List Float} {best : Option Float}
      (h : value y < value x) :
      Step ⟨x :: xs, y :: ys, best⟩
        ⟨Weight.insertDescending (x - y) xs, ys, improve best (x - y)⟩
  /-- The negative side has the greater weight, and gets the remainder. -/
  | toNegative {x y : Float} {xs ys : List Float} {best : Option Float}
      (h : value x < value y) :
      Step ⟨x :: xs, y :: ys, best⟩
        ⟨xs, Weight.insertDescending (y - x) ys, improve best (y - x)⟩
  /-- Equal weights: the positive side is the shorter one, and keeps its own. -/
  | keepPositive {x y : Float} {xs ys : List Float} {best : Option Float}
      (h : value x = value y) (hlength : xs.length < ys.length) :
      Step ⟨x :: xs, y :: ys, best⟩ ⟨Weight.insertDescending x xs, ys, best⟩
  /-- Equal weights: the negative side is no longer than the other, and keeps its own. -/
  | keepNegative {x y : Float} {xs ys : List Float} {best : Option Float}
      (h : value x = value y) (hlength : ys.length ≤ xs.length) :
      Step ⟨x :: xs, y :: ys, best⟩ ⟨xs, Weight.insertDescending y ys, best⟩

/-- A run of rounds. -/
abbrev Run : Cancellation → Cancellation → Prop :=
  Relation.ReflTransGen Step

/-- All weights are positive and finite, and none exceeds the bound. -/
structure Within (bound : ℚ) (t : Cancellation) : Prop where
  positive : ∀ w ∈ t.positive, IsWeight bound w
  negative : ∀ w ∈ t.negative, IsWeight bound w
  best : ∀ w ∈ t.best, IsWeight bound w

variable {bound : ℚ} {s t : Cancellation}

/-! ### Weights within a bound -/

/-- The better of two remainders is one of them. -/
theorem forall_mem_improve {P : Float → Prop} {best : Option Float} {r : Float}
    (hbest : ∀ w ∈ best, P w) (hr : P r) : ∀ w ∈ improve best r, P w := by
  unfold improve
  split
  · exact hbest
  · cases best with
    | none => simpa using hr
    | some b =>
        simp only
        split
        · simpa using hr
        · exact hbest

theorem forall_mem_insertDescending {P : Float → Prop} {x : Float} {ys : List Float} (hx : P x)
    (hys : ∀ w ∈ ys, P w) : ∀ w ∈ Weight.insertDescending x ys, P w := by
  intro w hw
  rcases Weight.mem_insertDescending.1 hw with rfl | hw
  · exact hx
  · exact hys w hw

/-- **A round keeps the weights positive and within their bound.** -/
theorem Step.within (h : Step s t) (hs : s.Within bound) : t.Within bound := by
  obtain ⟨hpositive, hnegative, hbest⟩ := hs
  cases h with
  | toPositive h =>
      obtain ⟨hx, hxs⟩ := List.forall_mem_cons.1 hpositive
      obtain ⟨hy, hys⟩ := List.forall_mem_cons.1 hnegative
      have hremainder := hx.sub hy h
      exact ⟨forall_mem_insertDescending hremainder hxs, hys, forall_mem_improve hbest hremainder⟩
  | toNegative h =>
      obtain ⟨hx, hxs⟩ := List.forall_mem_cons.1 hpositive
      obtain ⟨hy, hys⟩ := List.forall_mem_cons.1 hnegative
      have hremainder := hy.sub hx h
      exact ⟨hxs, forall_mem_insertDescending hremainder hys, forall_mem_improve hbest hremainder⟩
  | keepPositive =>
      obtain ⟨hx, hxs⟩ := List.forall_mem_cons.1 hpositive
      exact ⟨forall_mem_insertDescending hx hxs, (List.forall_mem_cons.1 hnegative).2, hbest⟩
  | keepNegative =>
      obtain ⟨hy, hys⟩ := List.forall_mem_cons.1 hnegative
      exact ⟨(List.forall_mem_cons.1 hpositive).2, forall_mem_insertDescending hy hys, hbest⟩

/-- **A run keeps the weights positive and within their bound.** -/
theorem Within.run (hs : s.Within bound) (h : Run s t) : t.Within bound := by
  induction h with
  | refl => exact hs
  | tail _ hstep ih => exact hstep.within ih

/-! ### The computation -/

/-- **What is computed in one round is a step**, and leaves one weight less. -/
theorem exists_step {x y : Float} {p q : ℚ} (hx : IsWeight p x) (hy : IsWeight q y) (rounds : Nat)
    (xs ys : List Float) (best : Option Float) :
    ∃ t, Step ⟨x :: xs, y :: ys, best⟩ t ∧
      cancel (rounds + 1) (x :: xs) (y :: ys) best =
        cancel rounds t.positive t.negative t.best ∧
      t.positive.length + t.negative.length = xs.length + ys.length + 1 := by
  have hpositive := zero_lt_sub_iff hx.isFinite hy.isFinite
  have hnegative := sub_lt_zero_iff hx.isFinite hy.isFinite
  rcases lt_trichotomy (value x) (value y) with h | h | h
  · refine ⟨_, .toNegative h, ?_, ?_⟩
    · simp only [cancel, if_neg (mt hpositive.1 h.not_gt), if_pos (hnegative.2 h),
        hx.neg_sub hy h, hx.abs_sub_of_lt hy h]
    · rw [Weight.length_insertDescending, Nat.add_assoc]
  · -- nothing remains, so the smallest remainder stays
    have himprove : improve best (x - y).abs = best :=
      if_pos (abs_sub_eq_zero hx.isFinite hy.isFinite h)
    by_cases hlength : xs.length < ys.length
    · refine ⟨_, .keepPositive h hlength, ?_, ?_⟩
      · simp only [cancel, if_neg (mt hpositive.1 h.not_gt), if_neg (mt hnegative.1 h.not_lt),
          if_pos hlength, himprove]
      · rw [Weight.length_insertDescending, Nat.add_right_comm]
    · refine ⟨_, .keepNegative h (Nat.le_of_not_lt hlength), ?_, ?_⟩
      · simp only [cancel, if_neg (mt hpositive.1 h.not_gt), if_neg (mt hnegative.1 h.not_lt),
          if_neg hlength, himprove]
      · rw [Weight.length_insertDescending, Nat.add_assoc]
  · refine ⟨_, .toPositive h, ?_, ?_⟩
    · simp only [cancel, if_pos (hpositive.2 h), hx.abs_sub hy h]
    · rw [Weight.length_insertDescending, Nat.add_right_comm]

/-- **The computation is a run of rounds**, and with as many rounds as there are weights it goes on
until one side has nothing left. -/
theorem exists_run (rounds : Nat) (hs : s.Within bound) :
    ∃ t, Run s t ∧ t.best = cancel rounds s.positive s.negative s.best ∧
      (s.positive.length + s.negative.length ≤ rounds → t.positive = [] ∨ t.negative = []) := by
  induction rounds generalizing s with
  | zero =>
      refine ⟨s, .refl, by rw [cancel]; simp, ?_⟩
      intro hlength
      exact Or.inl (List.eq_nil_of_length_eq_zero (by omega))
  | succ rounds ih =>
      obtain ⟨xs, ys, best⟩ := s
      cases xs with
      | nil => exact ⟨_, .refl, rfl, fun _ => Or.inl rfl⟩
      | cons x xs =>
          cases ys with
          | nil => exact ⟨_, .refl, rfl, fun _ => Or.inr rfl⟩
          | cons y ys =>
              obtain ⟨u, hstep, hcancel, hlength⟩ := exists_step (hs.positive x List.mem_cons_self)
                (hs.negative y List.mem_cons_self) rounds xs ys best
              obtain ⟨t, hrun, hbest, hend⟩ := ih (hstep.within hs)
              refine ⟨t, .head hstep hrun, hbest.trans hcancel.symm, ?_⟩
              intro hrounds
              refine hend ?_
              simp only [List.length_cons] at hrounds
              omega

end Cancellation

/-! ### The smallest change of a variable -/

namespace Sides

variable {bound : ℚ} {s : Sides}

/-- The cancellation of the weights of both sides, before its first round. -/
def start (s : Sides) : Cancellation :=
  ⟨Weight.descending s.positive, Weight.descending s.negative, none⟩

theorem within_start (hs : ∀ w ∈ s.positive ++ s.negative, IsWeight bound w) :
    s.start.Within bound := by
  refine ⟨?_, ?_, by simp [start]⟩
  · intro w hw
    exact hs w (List.mem_append_left _ ((Weight.perm_descending _).mem_iff.1 hw))
  · intro w hw
    exact hs w (List.mem_append_right _ ((Weight.perm_descending _).mem_iff.1 hw))

theorem mem_of_least? {ws : List Float} {w : Float} (h : least? ws = some w) : w ∈ ws := by
  cases ws with
  | nil => cases h
  | cons v vs =>
      cases h
      exact Weight.foldl_mem_cons Weight.smaller_eq_or v vs

/-- The smallest weight of a side, where it is looked for from infinity on. -/
theorem getD_least? {ws : List Float} (hws : ∀ w ∈ ws, w.isFinite = true) :
    (least? ws).getD (ws.foldl Weight.smaller Decimal.infinity) =
      ws.foldl Weight.smaller Decimal.infinity := by
  cases ws with
  | nil => rfl
  | cons w ws =>
      rw [least?, Option.getD_some, List.foldl_cons,
        Weight.smaller_infinity (hws w List.mem_cons_self)]

/-- **Without weights on one side** the smallest change is the smallest weight on the other. -/
theorem smallest_of_nil (h : s.positive = [] ∨ s.negative = [])
    (hs : ∀ w ∈ s.positive ++ s.negative, w.isFinite = true) :
    s.smallest = (s.positive ++ s.negative).foldl Weight.smaller Decimal.infinity := by
  obtain ⟨pos, neg⟩ := s
  cases pos with
  | nil => exact getD_least? hs
  | cons w ws =>
      obtain rfl : neg = [] := h.resolve_left (List.cons_ne_nil w ws)
      rw [List.append_nil] at hs ⊢
      simpa [smallest, leastDifference?] using getD_least? hs

/-- **The smallest change of a variable** is one of its weights, or the smallest remainder of a
cancellation that has gone on until one side has nothing left. -/
theorem smallest_cases (hne : s.positive ++ s.negative ≠ [])
    (hs : ∀ w ∈ s.positive ++ s.negative, IsWeight bound w) :
    s.smallest ∈ s.positive ++ s.negative ∨
      ∃ t, Cancellation.Run s.start t ∧ (t.positive = [] ∨ t.negative = []) ∧
        t.best = some s.smallest := by
  rw [smallest]
  cases hdifference : leastDifference? s with
  | none => exact Or.inl (Weight.foldl_smaller_infinity_mem hne fun w hw => (hs w hw).isFinite)
  | some d =>
      rw [Option.getD_some]
      rw [leastDifference?] at hdifference
      split at hdifference
      · exact Or.inl (List.mem_append_right _ (mem_of_least? hdifference))
      · split at hdifference
        · exact Or.inl (List.mem_append_left _ (mem_of_least? hdifference))
        · obtain ⟨t, hrun, hbest, hend⟩ :=
            Cancellation.exists_run (s.positive.length + s.negative.length) (within_start hs)
          refine Or.inr ⟨t, hrun, hend ?_, hbest.trans hdifference⟩
          rw [start, Weight.length_descending, Weight.length_descending]

/-- **The smallest change of a variable** is positive, and no greater than the weights it is made
of. -/
theorem isWeight_smallest (hne : s.positive ++ s.negative ≠ [])
    (hs : ∀ w ∈ s.positive ++ s.negative, IsWeight bound w) : IsWeight bound s.smallest := by
  rcases smallest_cases hne hs with hmem | ⟨t, hrun, -, hbest⟩
  · exact hs _ hmem
  · exact ((within_start hs).run hrun).best _ hbest

end Sides

end Bounds

end WeightedSat
