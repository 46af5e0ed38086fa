import SymbolicRegression.Decimal.Text
import SymbolicRegression.Program.Bindings
import SymbolicRegression.Program.Tree

/-!
# Formulas as text

A formula is written in infix form with every operator in brackets, `(X1 + (2.5 * X2))`. The text
is produced in one pass over the opcodes: an operator opens a bracket and waits for its operands,
and a finished operand closes every bracket whose right operand it is.

## Main definitions

* `SymbolicRegression.Layout` — which terminals are variables and which are constants.
* `SymbolicRegression.Program.formula` — the text of a program.
* `SymbolicRegression.Tree.formula` — the text of an expression tree.
-/

set_option autoImplicit false

namespace SymbolicRegression

/-- The meaning of the terminals: `varCount` variables, then the constants. -/
structure Layout where
  /-- The number of variables. -/
  varCount : Nat
  /-- The value of each constant. -/
  constants : Array Float

/-- The layout of a table of bound values. -/
def Bindings.layout (b : Bindings) : Layout := ⟨b.varCount, b.constants⟩

/-- How a terminal is written: a variable by its number counted from one, a constant by its
value, and a constant that has no value by its number. -/
def Layout.label (layout : Layout) (slot : Nat) : String :=
  if slot < layout.varCount then s!"X{slot + 1}"
  else match layout.constants[slot - layout.varCount]? with
    | some value => Decimal.plain.render value
    | none => s!"C{slot - layout.varCount + 1}"

/-- An operator with an open bracket, and the operand that it waits for. -/
inductive Pending where
  /-- The left operand. -/
  | left (op : Operator)
  /-- The right operand. -/
  | right
  deriving DecidableEq, Repr

/-- The sign of an operator with a blank on either side. -/
def Operator.infixText (op : Operator) : String := String.ofList [' ', op.symbol, ' ']

/-- What follows a finished operand: a bracket for each operator whose right operand it is, then
the sign of the operator whose left operand that makes. -/
def closeOperand : List Pending → String → List Pending × String
  | [], out => ([], out)
  | .left op :: rest, out => (.right :: rest, out ++ op.infixText)
  | .right :: rest, out => closeOperand rest (out ++ ")")

/-- Write the text of a sequence of opcodes after `out`. An invalid opcode stands for an operand
and is written as a question mark with its number. -/
def formulaFrom (layout : Layout) : List Opcode → List Pending → String → String
  | [], _, out => out
  | op :: rest, pending, out =>
    match Node.ofOpcode? op with
    | some (.operator op) => formulaFrom layout rest (.left op :: pending) (out ++ "(")
    | some (.terminal slot) =>
      let (pending, out) := closeOperand pending (out ++ layout.label slot)
      formulaFrom layout rest pending out
    | none =>
      let (pending, out) := closeOperand pending (out ++ s!"?{op.toNat}")
      formulaFrom layout rest pending out

/-- The text of a program. -/
def Program.formula (p : Program) (layout : Layout) : String := formulaFrom layout p.code [] ""

/-- The text of an expression tree. -/
def Tree.formula (layout : Layout) : Tree → String
  | leaf slot => layout.label slot
  | node op left right =>
    "(" ++ left.formula layout ++ op.infixText ++ right.formula layout ++ ")"

end SymbolicRegression
