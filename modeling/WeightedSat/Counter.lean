import WeightedSat.Fault
import WeightedSat.Word

/-!
**Counters of a fixed width.**

A clause keeps the number of its true literals in a counter of eight, sixteen or thirty-two bits.
A counter is a natural number; the width decides which steps it admits.

Main definitions:

* `WeightedSat.CounterWidth` — the widths;
* `WeightedSat.CounterWidth.capacity` — the greatest value of a counter;
* `WeightedSat.CounterWidth.narrowest` — the least width that can count to a given number;
* `WeightedSat.CounterWidth.increment`, `WeightedSat.CounterWidth.decrement`,
  `WeightedSat.CounterWidth.step` — one step.

Main results:

* `WeightedSat.CounterWidth.increment_eq_ok_iff`, `WeightedSat.CounterWidth.decrement_eq_ok_iff` —
  exactly when a step is admitted.
-/

set_option relaxedAutoImplicit false
set_option autoImplicit false

namespace WeightedSat

/-- The width of the counters of a model. -/
inductive CounterWidth where
  /-- Eight bits. -/
  | eight
  /-- Sixteen bits. -/
  | sixteen
  /-- Thirty-two bits. -/
  | thirtyTwo
deriving DecidableEq

namespace CounterWidth

/-- The number of bits. -/
def bits : CounterWidth → Nat
  | .eight => 8
  | .sixteen => 16
  | .thirtyTwo => 32

/-- The number of bytes. -/
def bytes (width : CounterWidth) : Nat :=
  width.bits / 8

/-- The greatest value of a counter. -/
def capacity (width : CounterWidth) : Nat :=
  wordCount width.bits - 1

/-- The width with a given number of bits. -/
def ofBits? : Nat → Option CounterWidth
  | 8 => some .eight
  | 16 => some .sixteen
  | 32 => some .thirtyTwo
  | _ => none

/-- The narrowest width that can count the variables of a clause, or the widest there is. -/
def narrowest (count : Nat) : CounterWidth :=
  if count ≤ capacity .eight then .eight
  else if count ≤ capacity .sixteen then .sixteen
  else .thirtyTwo

/-- Counts one more. -/
def increment (width : CounterWidth) (count : Nat) : Except Fault Nat :=
  if count < width.capacity then .ok (count + 1) else .error .counterOverflow

/-- Counts one less. -/
def decrement (count : Nat) : Except Fault Nat :=
  if 0 < count then .ok (count - 1) else .error .counterUnderflow

/-- One step, up or down. -/
def step (width : CounterWidth) (up : Bool) (count : Nat) : Except Fault Nat :=
  if up then width.increment count else decrement count

theorem increment_eq_ok_iff {width : CounterWidth} {m n : Nat} :
    width.increment m = .ok n ↔ m < width.capacity ∧ n = m + 1 := by
  unfold increment
  split
  · rename_i h
    simp [h, eq_comm]
  · rename_i h
    simp [h]

theorem decrement_eq_ok_iff {m n : Nat} : decrement m = .ok n ↔ 0 < m ∧ n = m - 1 := by
  unfold decrement
  split
  · rename_i h
    simp [h, eq_comm]
  · rename_i h
    simp [h]

end CounterWidth

end WeightedSat
