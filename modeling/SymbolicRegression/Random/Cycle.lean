import SymbolicRegression.Random.Source

/-!
# A repeated list of words

A word source that gives the words of a list in order and starts again at its end.

## Main definitions

* `SymbolicRegression.Cycle` — the list and the place in it.
-/

set_option autoImplicit false

namespace SymbolicRegression

/-- A list of words to be given over and over. -/
structure Cycle where
  /-- The words. -/
  words : Array UInt64
  /-- How many words have been given. -/
  given : Nat
  deriving DecidableEq, Repr

namespace Cycle

/-- A cycle that starts at its first word. -/
def ofList (words : List UInt64) : Cycle := ⟨words.toArray, 0⟩

/-- The next word, and the cycle after it. The empty cycle gives zeros. -/
def next (c : Cycle) : UInt64 × Cycle :=
  (c.words.getD (c.given % c.words.size) 0, { c with given := c.given + 1 })

instance : WordSource Cycle := ⟨next⟩

end Cycle

end SymbolicRegression
