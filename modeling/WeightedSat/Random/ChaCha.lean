import WeightedSat.Random.Words

/-!
**The stream cipher ChaCha with eight rounds as a source of words.**

A key of eight words and a block counter make up a state of sixteen words, which eight rounds of
mixing turn into the next sixteen words of the stream.

Main definitions:

* `WeightedSat.ChaCha.quarterRound` — the mixing of four words;
* `WeightedSat.ChaCha.block` — the words of one block;
* `WeightedSat.ChaCha.keyOfSeed` — the key that a seed stands for;
* `WeightedSat.Generator` — a place in the stream;
* `WeightedSat.Generator.trajectory` — the stream of a numbered trajectory.
-/

set_option relaxedAutoImplicit false
set_option autoImplicit false

namespace WeightedSat

namespace ChaCha

/-- The words of a block. -/
abbrev Block := Vector UInt32 16

/-- The bits of a word turned to the left. -/
def rotateLeft (x : UInt32) (k : UInt32) : UInt32 :=
  (x <<< k) ||| (x >>> (32 - k))

/-- The mixing of the words at four places. -/
def quarterRound (a b c d : Fin 16) (s : Block) : Block :=
  let s := s.set a (s[a] + s[b])
  let s := s.set d (rotateLeft (s[d] ^^^ s[a]) 16)
  let s := s.set c (s[c] + s[d])
  let s := s.set b (rotateLeft (s[b] ^^^ s[c]) 12)
  let s := s.set a (s[a] + s[b])
  let s := s.set d (rotateLeft (s[d] ^^^ s[a]) 8)
  let s := s.set c (s[c] + s[d])
  s.set b (rotateLeft (s[b] ^^^ s[c]) 7)

/-- Two rounds: the four columns, then the four diagonals. -/
def doubleRound (s : Block) : Block :=
  s |> quarterRound 0 4 8 12 |> quarterRound 1 5 9 13
    |> quarterRound 2 6 10 14 |> quarterRound 3 7 11 15
    |> quarterRound 0 5 10 15 |> quarterRound 1 6 11 12
    |> quarterRound 2 7 8 13 |> quarterRound 3 4 9 14

/-- The state before the rounds: four constants, the key, the block counter, and no stream
number. -/
def initial (key : Vector UInt32 8) (counter : UInt64) : Block :=
  #v[0x61707865, 0x3320646e, 0x79622d32, 0x6b206574,
    key[0], key[1], key[2], key[3], key[4], key[5], key[6], key[7],
    counter.toUInt32, (counter >>> 32).toUInt32, 0, 0]

/-- The words of the block with a given number. -/
def block (key : Vector UInt32 8) (counter : UInt64) : Block :=
  let start := initial key counter
  let mixed := doubleRound (doubleRound (doubleRound (doubleRound start)))
  Vector.zipWith (· + ·) start mixed

/-! ### Keys -/

/-- One step of the congruential sequence that spreads a seed. -/
def spread (s : UInt64) : UInt64 :=
  s * 6364136223846793005 + 11634580027462260723

/-- The word that a member of that sequence stands for. -/
def seedWord (s : UInt64) : UInt32 :=
  let x : UInt32 := (((s >>> 18) ^^^ s) >>> 27).toUInt32
  let turn : UInt32 := (s >>> 59).toUInt32
  rotateLeft x (32 - turn)

/-- The key that a seed stands for. -/
def keyOfSeed (seed : UInt64) : Vector UInt32 8 :=
  Vector.ofFn fun i => seedWord ((i.val + 1).repeat spread seed)

end ChaCha

/-- A place in the stream of a key. -/
structure Generator where
  /-- The key. -/
  key : Vector UInt32 8
  /-- The number of the block after the current one. -/
  counter : UInt64
  /-- The current block. -/
  block : ChaCha.Block
  /-- How many of its words have been delivered. -/
  delivered : Nat

namespace Generator

/-- The start of the stream of a seed. -/
def ofSeed (seed : UInt64) : Generator :=
  ⟨ChaCha.keyOfSeed seed, 0, Vector.replicate 16 0, 16⟩

/-- **The stream of a numbered trajectory**: those of one run are the streams of successive
seeds. -/
def trajectory (seed index : UInt64) : Generator :=
  ofSeed (seed + index)

/-- The next word of the stream. -/
def nextWord (g : Generator) : UInt32 × Generator :=
  if h : g.delivered < 16 then (g.block[g.delivered], { g with delivered := g.delivered + 1 })
  else
    let block := ChaCha.block g.key g.counter
    (block[0], ⟨g.key, g.counter + 1, block, 1⟩)

instance : WordSource Generator where
  next := nextWord

end Generator

end WeightedSat
