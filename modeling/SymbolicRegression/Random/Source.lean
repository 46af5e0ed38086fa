import SymbolicRegression.Fault

/-!
# Sources of random words

All randomness comes from a source of 64-bit words. The operations that draw from it are
generic in the source, so a statement about them holds for every stream of words.

A draw may refuse words and ask for more, and a stream may be refused for ever. Draws are
therefore made from a *supply*, a source together with the number of words that may still be
taken from it; when none is left the draw ends with `Fault.supplyExhausted`.

## Main definitions

* `SymbolicRegression.WordSource` — a source of words.
* `SymbolicRegression.Supply` — a source from which finitely many words may be taken.
* `SymbolicRegression.Draw` — a computation that takes words from a supply.
-/

set_option autoImplicit false

namespace SymbolicRegression

/-- A source of 64-bit words: each state gives a word and the state that follows. -/
class WordSource (σ : Type) where
  /-- The next word, and the source after it. -/
  next : σ → UInt64 × σ

/-- A source from which at most `left` further words are taken. -/
structure Supply (σ : Type) where
  /-- Where the words come from. -/
  source : σ
  /-- How many may still be taken. -/
  left : Nat

namespace Supply

variable {σ : Type}

/-- More words than any run takes. -/
def ample : Nat := 1 <<< 62

/-- A supply that no run uses up. -/
def ofSource (source : σ) : Supply σ := ⟨source, ample⟩

/-- The word that the source gives next. -/
def peek [WordSource σ] (supply : Supply σ) : UInt64 := (WordSource.next supply.source).1

end Supply

/-- A computation that takes words from a supply, and may end in a fault. -/
abbrev Draw (σ : Type) := StateT (Supply σ) (Except Fault)

namespace Draw

variable {σ : Type} [WordSource σ]

/-- The next word of the supply. -/
def word : Draw σ UInt64 := fun supply =>
  match supply.left with
  | 0 => .error .supplyExhausted
  | left + 1 =>
    let (w, source) := WordSource.next supply.source
    .ok (w, ⟨source, left⟩)

end Draw

end SymbolicRegression
