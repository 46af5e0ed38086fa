import SymbolicRegression.Fault

/-!
# Problems

What a case file describes: the terminals that a formula may use, the range of its constants and
the cases that it is to fit.

## Main definitions

* `SymbolicRegression.FitnessCase` — a row of inputs and the value wanted for it.
* `SymbolicRegression.Problem` — the cases and the terminals.
-/

set_option autoImplicit false

namespace SymbolicRegression

/-- A row of inputs with the value that a formula should take there. -/
structure FitnessCase where
  /-- One value for each variable. -/
  inputs : Array Float
  /-- The wanted value. -/
  target : Float

/-- The terminals of a run and the cases to fit. -/
structure Problem where
  /-- The number of variables. -/
  varCount : Nat
  /-- The number of constants. -/
  constCount : Nat
  /-- The lower end of the range of constants. -/
  minRandom : Float
  /-- The upper end of the range of constants, itself left out. -/
  maxRandom : Float
  /-- The cases in the order of the file. -/
  cases : List FitnessCase

namespace Problem

/-- The number of terminals. -/
def terminalCount (p : Problem) : Nat := p.varCount + p.constCount

/-- The number of terminals, if it fits into a word of 64 bits. -/
def countTerminals (p : Problem) : Except Fault Nat :=
  if p.terminalCount < UInt64.size then .ok p.terminalCount
  else .error (.countOverflow p.terminalCount)

end Problem

end SymbolicRegression
