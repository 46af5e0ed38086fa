import SymbolicRegression.CaseFile.Basic
import SymbolicRegression.Program.Bindings
import SymbolicRegression.Random.Uniform
import SymbolicRegression.Storage

/-!
# Random constants

The constants of a run are drawn once, before anything else, from the range of the problem.

## Main definitions

* `SymbolicRegression.Bindings.ofConstants` — zeros for the variables, then given constants.
* `SymbolicRegression.Bindings.sample` — zeros for the variables, then random constants.
-/

set_option autoImplicit false

namespace SymbolicRegression

variable {σ : Type} [WordSource σ]

/-- A random constant of a problem: the lower end plus a random share of the width. -/
def Problem.drawConstant (p : Problem) : Draw σ Float := do
  return p.minRandom + (p.maxRandom - p.minRandom) * (← Draw.unit)

/-- Zeros for the variables, then the given constants. -/
def Bindings.ofConstants (varCount : Nat) (constants : List Float) : Bindings where
  values := Array.replicate varCount 0.0 ++ constants.toArray
  varCount := varCount
  varCount_le := by simp

/-- Zeros for the variables of a problem, then its random constants. A number takes eight bytes. -/
def Bindings.sample (p : Problem) : Draw σ Bindings := do
  Storage.reserve 8 (← p.countTerminals)
  return Bindings.ofConstants p.varCount
    (← (List.replicate p.constCount p).mapM Problem.drawConstant)

end SymbolicRegression
