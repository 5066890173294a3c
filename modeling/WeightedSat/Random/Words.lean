import WeightedSat.Word

/-!
**Drawing from a source of words.**

Everything random is drawn from a sequence of 32-bit words.  A source is anything that delivers
the next word.

Main definitions:

* `WeightedSat.WordSource` — a source of words;
* `WeightedSat.WordSource.nextPair` — sixty-four bits, the low half first;
* `WeightedSat.WordSource.coin` — a truth value, each with the same chance;
* `WeightedSat.WordSource.below` — a number below a bound.
-/

set_option relaxedAutoImplicit false
set_option autoImplicit false

namespace WeightedSat

/-- A source of 32-bit words. -/
class WordSource (σ : Type) where
  /-- The next word, and the source after it. -/
  next : σ → UInt32 × σ

namespace WordSource

variable {σ : Type} [WordSource σ]

/-- The next two words as one number, the first of them the low half. -/
def nextPair (source : σ) : Nat × σ :=
  let (low, source) := next source
  let (high, source) := next source
  (high.toNat * wordCount 32 + low.toNat, source)

/-- A truth value, each with the same chance. -/
def coin (source : σ) : Bool × σ :=
  let (v, source) := nextPair source
  (v < wordCount 63, source)

/-- A number below `n`: the high half of the product of a word with `n`.  Where the low half is so
great that the remainder of an endless product could carry into the high half, a second word
decides. -/
def below (n : Nat) (source : σ) : Nat × σ :=
  let (v, source) := next source
  let product := v.toNat * n
  let low := product % wordCount 32
  if wordCount 32 - n < low then
    let (v, source) := next source
    let carry := low + v.toNat * n / wordCount 32
    (product / wordCount 32 + (if wordCount 32 ≤ carry then 1 else 0), source)
  else (product / wordCount 32, source)

/-- Several truth values. -/
def coins : Nat → List Bool → σ → List Bool × σ
  | 0, drawn, source => (drawn.reverse, source)
  | n + 1, drawn, source =>
      let (b, source) := coin source
      coins n (b :: drawn) source

end WordSource

end WeightedSat
