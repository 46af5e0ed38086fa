import SymbolicRegression.Program.Basic
import SymbolicRegression.Program.Bindings

/-!
# Evaluation

A stack machine evaluates a program from its last opcode to its first: a terminal pushes its
value, an operator replaces the two topmost values, its left operand on top, by its own value.
The machine keeps its stack from one evaluation to the next but empties it first.

## Main definitions

* `SymbolicRegression.Machine` — the machine.
* `SymbolicRegression.Machine.step` — the effect of one opcode.
* `SymbolicRegression.Machine.evaluate` — the value of a program.
-/

set_option autoImplicit false

namespace SymbolicRegression

/-- A stack machine over floating-point numbers. -/
structure Machine where
  /-- The operands, topmost first. -/
  stack : List Float

namespace Machine

/-- A machine with nothing on its stack. -/
def empty : Machine := ⟨[]⟩

/-- Put a value on top. -/
@[inline] def push (m : Machine) (x : Float) : Machine := ⟨x :: m.stack⟩

/-- Take the topmost value, which is zero if there is none. -/
@[inline] def pop (m : Machine) : Float × Machine :=
  match m.stack with
  | [] => (0.0, m)
  | x :: rest => (x, ⟨rest⟩)

/-- The effect of one opcode. A terminal past the end of the table is zero, and an invalid opcode
has no effect. -/
def step (values : Array Float) (op : Opcode) (m : Machine) : Machine :=
  match Node.ofOpcode? op with
  | some (.terminal slot) => m.push (values.getD slot 0.0)
  | some (.operator op) =>
    let (left, m) := m.pop
    let (right, m) := m.pop
    m.push (op.apply left right)
  | none => m

/-- The effect of a sequence of opcodes, the last one first. -/
def run (values : Array Float) (code : List Opcode) (m : Machine) : Machine :=
  code.foldr (step values) m

/-- The value of a program, and the machine afterwards. -/
def evaluate (_ : Machine) (p : Program) (b : Bindings) : Float × Machine :=
  (run b.values p.code empty).pop

end Machine

/-- The value of a program under bound values. -/
def Program.evaluate (p : Program) (b : Bindings) : Float := (Machine.empty.evaluate p b).1

end SymbolicRegression
