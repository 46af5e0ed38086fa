import SymbolicRegression.Fault

/-!
# Bound values

The table that terminals index: the variables of the current case first, then the constants of
the run.

## Main definitions

* `SymbolicRegression.Bindings` — the table.
* `SymbolicRegression.Bindings.ofValues` — the table of given values.
* `SymbolicRegression.Bindings.bind` — put the inputs of a case into the variable slots.
* `SymbolicRegression.Bindings.constants` — the slots after the variables.
-/

set_option autoImplicit false

namespace SymbolicRegression

/-- The values of all terminals, variables before constants. -/
structure Bindings where
  /-- The value of each terminal. -/
  values : Array Float
  /-- How many of the slots are variables. -/
  varCount : Nat
  /-- Every variable has a slot. -/
  varCount_le : varCount ≤ values.size

namespace Bindings

/-- The table of given values, of which the first `varCount` are variables. -/
def ofValues (varCount : Nat) (values : Array Float) : Except Fault Bindings :=
  if h : varCount ≤ values.size then .ok ⟨values, varCount, h⟩
  else .error (.missingSlots varCount values.size)

/-- The constants. -/
def constants (b : Bindings) : Array Float := b.values.extract b.varCount b.values.size

/-- Put one input into each variable slot and keep the constants. -/
def bind (b : Bindings) (inputs : Array Float) : Except Fault Bindings :=
  if h : inputs.size = b.varCount then
    .ok { b with values := inputs ++ b.constants, varCount_le := by simp [h] }
  else .error (.inputCount b.varCount inputs.size)

end Bindings

end SymbolicRegression
