/-!
# Faults

The ways in which a request outside an operation's domain ends. A fault is a value, so every
operation of the library is a total function, and "no fault arises" is a statement about it.

## Main definitions

* `SymbolicRegression.Fault` — the causes.
-/

set_option autoImplicit false

namespace SymbolicRegression

/-- Why an operation has no answer. -/
inductive Fault where
  /-- An index was to be drawn from an empty range. -/
  | emptyRange
  /-- A coin was to be tossed with a probability outside `[0, 1]`. -/
  | improperProbability
  /-- The supply of random words was used up. -/
  | supplyExhausted
  /-- A row of `found` inputs was to be bound to `expected` variables. -/
  | inputCount (expected found : Nat)
  /-- A table of `found` values is too short for `needed` variables. -/
  | missingSlots (needed found : Nat)
  /-- The sites of a splice do not lie inside the parents, or one stops before it starts. -/
  | sitesOutside
  /-- A sequence of opcodes that should be exactly one formula is not. -/
  | incomplete
  /-- A generator was asked for with a number of terminals for which there are no opcodes. -/
  | terminalRange (count : Nat)
  /-- A number does not fit into a word of 64 bits. -/
  | countOverflow (count : Nat)
  /-- A row of `count` items of `width` bytes each is too long to be stored. -/
  | rowTooLong (width count : Nat)
  /-- Slot `index` was asked of a population of `size` programs. -/
  | noSlot (index size : Nat)
  deriving DecidableEq, Repr

/-- The wording of a fault. -/
def Fault.message : Fault → String
  | .emptyRange => "an index was drawn from an empty range"
  | .improperProbability => "a coin was tossed with a probability outside [0, 1]"
  | .supplyExhausted => "the supply of random words was used up"
  | .inputCount expected found => s!"{found} inputs were bound to {expected} variables"
  | .missingSlots needed found => s!"{found} values were given for {needed} variables"
  | .sitesOutside => "a splice reached outside its parents"
  | .incomplete => "a program was put together that is not exactly one formula"
  | .terminalRange count => s!"a generator was asked for with {count} terminals"
  | .countOverflow count => s!"{count} does not fit into 64 bits"
  | .rowTooLong width count => s!"a row of {count} items of {width} bytes each is too long"
  | .noSlot index size => s!"slot {index} was asked of a population of {size} programs"

end SymbolicRegression
