/-!
**Weights and their order.**

Weights are floating-point numbers.  Besides the usual comparison, which no value that is not a
number takes part in, there is a total order that tells every two of them apart: by sign and
size, negative zero below zero, and what is not a number above all.

Main definitions:

* `WeightedSat.Weight.smaller`, `WeightedSat.Weight.larger` — the extremes of two weights;
* `WeightedSat.Weight.rank` — the place in the total order;
* `WeightedSat.Weight.descending` — weights from the greatest to the least.

Main results:

* `WeightedSat.Weight.length_insertDescending`, `WeightedSat.Weight.mem_insertDescending` — what
  inserting a weight does to a list.
-/

set_option relaxedAutoImplicit false
set_option autoImplicit false

namespace WeightedSat.Weight

/-- The smaller of two weights: a value that is not a number gives way to the other, and of two
equal ones the second is kept. -/
def smaller (x y : Float) : Float :=
  if y.isNaN then x else if x < y then x else y

/-- The larger of two weights: a value that is not a number gives way to the other, and of two
equal ones the second is kept. -/
def larger (x y : Float) : Float :=
  if y.isNaN then x else if y < x then x else y

/-- The sum of weights, added in order. -/
def total (weights : List Float) : Float :=
  weights.foldl (· + ·) 0.0

/-! ### The total order -/

/-- The bit that holds the sign of a weight. -/
def signBit : UInt64 := 0x8000000000000000

/-- The place of a weight in the total order: its bits as a number above all those with a minus
sign, which are counted downwards. -/
def rank (x : Float) : UInt64 :=
  if x.toBits < signBit then x.toBits + signBit else ~~~x.toBits

/-- Puts a weight in front of the first one that is not above it. -/
def insertDescending (x : Float) : List Float → List Float
  | [] => [x]
  | y :: ys => if rank x < rank y then y :: insertDescending x ys else x :: y :: ys

/-- Weights from the greatest to the least. -/
def descending (weights : List Float) : List Float :=
  weights.foldr insertDescending []

@[simp] theorem length_insertDescending (x : Float) (ys : List Float) :
    (insertDescending x ys).length = ys.length + 1 := by
  induction ys with
  | nil => rfl
  | cons y ys ih =>
      simp only [insertDescending]
      split <;> simp [ih]

theorem mem_insertDescending {x z : Float} {ys : List Float} :
    z ∈ insertDescending x ys ↔ z = x ∨ z ∈ ys := by
  induction ys with
  | nil => simp [insertDescending]
  | cons y ys ih =>
      simp only [insertDescending]
      split <;> simp [ih, or_left_comm]

@[simp] theorem length_descending (weights : List Float) :
    (descending weights).length = weights.length := by
  induction weights with
  | nil => rfl
  | cons w ws ih =>
      change (insertDescending w (descending ws)).length = _
      rw [length_insertDescending, ih, List.length_cons]

end WeightedSat.Weight
