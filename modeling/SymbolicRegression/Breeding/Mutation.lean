import SymbolicRegression.Breeding.Growth

/-!
# Mutation

A child of one program: every opcode is replaced, with a given probability, by a random one of
its kind. Terminals stay terminals and operators stay operators, so the shape is kept as long as
there are opcodes for all terminals; a child that is not exactly one formula is a fault.

## Main definitions

* `SymbolicRegression.mutateOpcode` — what becomes of one opcode.
* `SymbolicRegression.resample` — the opcodes of the child.
* `SymbolicRegression.mutate` — the child of a program.
-/

set_option autoImplicit false

namespace SymbolicRegression

variable {σ : Type} [WordSource σ]

/-- An opcode, or with the given probability a random one of its kind. -/
def mutateOpcode (probability : Float) (terminals : Nat) (op : Opcode) : Draw σ Opcode := do
  if ← Draw.coin probability then
    if op < Operator.firstOpcode then randomTerminal terminals else randomOperator
  else return op

/-- What becomes of the opcodes of a program, whether or not it is a formula. -/
def resample (parent : Program) (probability : Float) (terminals : Nat) : Draw σ Program := do
  return ⟨← parent.code.mapM (mutateOpcode probability terminals)⟩

/-- The child of a program. -/
def mutate (parent : Program) (probability : Float) (terminals : Nat) : Draw σ Program := do
  (← resample parent probability terminals).certify

end SymbolicRegression
