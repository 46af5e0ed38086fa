import SymbolicRegression.Random.Source

/-!
# The xoshiro256++ generator

The word source of a seeded run: four words of state, advanced by shifts, rotations and
exclusive or. A seed is spread over the state by a permuted congruential generator.

## Main definitions

* `SymbolicRegression.Xoshiro` — the state.
* `SymbolicRegression.Xoshiro.ofSeed` — the state that a seed gives.
-/

set_option autoImplicit false

namespace SymbolicRegression

/-- The state of the generator. -/
structure Xoshiro where
  /-- First word. -/
  s0 : UInt64
  /-- Second word. -/
  s1 : UInt64
  /-- Third word. -/
  s2 : UInt64
  /-- Fourth word. -/
  s3 : UInt64
  deriving DecidableEq, Repr

namespace Xoshiro

/-- Rotate a word left by `k` places, `0 < k < 64`. -/
def rotateLeft (w k : UInt64) : UInt64 := (w <<< k) ||| (w >>> (64 - k))

/-- One step: the word given, and the state after it. -/
def next (g : Xoshiro) : UInt64 × Xoshiro :=
  let w := rotateLeft (g.s0 + g.s3) 23 + g.s0
  let t := g.s1 <<< 17
  let s2 := g.s2 ^^^ g.s0
  let s3 := g.s3 ^^^ g.s1
  let s1 := g.s1 ^^^ s2
  let s0 := g.s0 ^^^ s3
  (w, ⟨s0, s1, s2 ^^^ t, rotateLeft s3 45⟩)

instance : WordSource Xoshiro := ⟨next⟩

/-- One step of the congruential generator that spreads a seed. -/
def spread (state : UInt64) : UInt64 := state * 6364136223846793005 + 11634580027462260723

/-- The half word that a state of the congruential generator gives: a shifted exclusive or of the
state with itself, rotated right by its five highest bits. -/
def halfWord (state : UInt64) : UInt32 :=
  let x := (((state >>> 18) ^^^ state) >>> 27).toUInt32
  let k := (state >>> 59).toUInt32
  (x >>> k) ||| (x <<< ((32 - k) % 32))

/-- Two successive half words as one word, the lower half first, and the state after them. -/
def seedWord (state : UInt64) : UInt64 × UInt64 :=
  let low := spread state
  let high := spread low
  ((halfWord low).toUInt64 ||| ((halfWord high).toUInt64 <<< 32), high)

/-- The generator that a seed gives. -/
def ofSeed (seed : UInt64) : Xoshiro :=
  let (s0, state) := seedWord seed
  let (s1, state) := seedWord state
  let (s2, state) := seedWord state
  let (s3, _) := seedWord state
  ⟨s0, s1, s2, s3⟩

end Xoshiro

end SymbolicRegression
