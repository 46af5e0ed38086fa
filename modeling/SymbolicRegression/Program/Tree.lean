import SymbolicRegression.Program.Basic

/-!
# Expression trees

The formulas themselves, as binary trees, with the sequence of opcodes that writes one down and
the value that one takes.

## Main definitions

* `SymbolicRegression.Tree` — a formula over numbered terminals.
* `SymbolicRegression.Tree.encode` — its opcodes in pre-order.
* `SymbolicRegression.Tree.value` — its value under a table of bound values.
-/

set_option autoImplicit false

namespace SymbolicRegression

/-- A formula over numbered terminals. -/
inductive Tree where
  /-- A terminal. -/
  | leaf (slot : Fin 110)
  /-- An operator with its operands. -/
  | node (op : Operator) (left right : Tree)
  deriving DecidableEq, Repr

namespace Tree

/-- The opcodes of a formula, an operator before its operands. -/
def encode : Tree → List Opcode
  | leaf slot => [UInt8.ofNat slot]
  | node op left right => op.opcode :: (left.encode ++ right.encode)

/-- The number of terminals and operators. -/
def size : Tree → Nat
  | leaf _ => 1
  | node _ left right => left.size + right.size + 1

/-- The number of operators on the longest way from the root to a terminal. -/
def height : Tree → Nat
  | leaf _ => 0
  | node _ left right => max left.height right.height + 1

/-- The value of a formula. A terminal past the end of the table is zero. -/
def value (values : Array Float) : Tree → Float
  | leaf slot => values.getD slot.val 0.0
  | node op left right => op.apply (left.value values) (right.value values)

theorem length_encode (t : Tree) : t.encode.length = t.size := by
  induction t with
  | leaf slot => rfl
  | node op left right hl hr => simp [encode, size, hl, hr]

end Tree

end SymbolicRegression
