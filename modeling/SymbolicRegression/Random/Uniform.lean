import SymbolicRegression.Random.Source

/-!
# Uniform draws

Indices, coins and numbers of the unit interval, made from random words.

An index below `n` is the high half of the 128-bit product of a word with `n`. Words whose low
half lies above the largest multiple of the range are refused and another word is taken, so no
index is favoured. One word is taken even when `n` is `1`.

## Main definitions

* `SymbolicRegression.Draw.below` — an index below a bound.
* `SymbolicRegression.Draw.coin` — a coin of given probability.
* `SymbolicRegression.Draw.unit` — a number of the half-open unit interval.
-/

set_option autoImplicit false

namespace SymbolicRegression

namespace Draw

variable {σ : Type} [WordSource σ]

/-- The index that the word `w` selects below `n`: the high half of `w * n`. -/
def index (n : Nat) (w : UInt64) : Nat := w.toNat * n / UInt64.size

/-- A word is accepted for the bound `n` when the low half of `w * n` lies below `n` shifted left
until its highest bit is set. -/
def accepts (n : Nat) (w : UInt64) : Bool :=
  w.toNat * n % UInt64.size < n <<< (63 - n.log2)

/-- Take words until one is accepted for the bound `n`. -/
def belowFrom (n : Nat) : Nat → σ → Except Fault (Nat × Supply σ)
  | 0, _ => .error .supplyExhausted
  | left + 1, source =>
    let (w, source) := WordSource.next source
    if accepts n w then .ok (index n w, ⟨source, left⟩) else belowFrom n left source

/-- An index below `n`. No index lies below `0`. -/
def below (n : Nat) : Draw σ Nat := fun supply =>
  if n = 0 then .error .emptyRange else belowFrom n supply.left supply.source

/-- The words that count as heads for the probability `p < 1` are those below `p * 2 ^ 64`,
rounded down. -/
def headsBelow (p : Float) : UInt64 := (p * 18446744073709551616.0).toUInt64

/-- A coin that shows heads with probability `p`. The certain coin takes no word; the impossible
one takes a word. -/
def coin (p : Float) : Draw σ Bool :=
  if 0.0 ≤ p ∧ p ≤ 1.0 then
    if p == 1.0 then pure true else do return decide ((← word) < headsBelow p)
  else throw .improperProbability

/-- The multiple of `2 ^ (-53)` in `[0, 1)` that the upper 53 bits of a word select. -/
def unitOfWord (w : UInt64) : Float := (w >>> 11).toFloat / 9007199254740992.0

/-- A number of the half-open unit interval. -/
def unit : Draw σ Float := do return unitOfWord (← word)

end Draw

end SymbolicRegression
