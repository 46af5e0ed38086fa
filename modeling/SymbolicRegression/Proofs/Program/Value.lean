import Mathlib.Tactic.Common
import SymbolicRegression.Program.Evaluation
import SymbolicRegression.Proofs.Program.Shape

set_option autoImplicit false
set_option relaxedAutoImplicit false

/-!
# The value of a program

The stack machine reads a program from its end to its beginning. On the encoding of a tree it
leaves the value of the tree on top of what it found, so a complete program has the value of its
tree whatever the machine did before.

## Main definitions

* `SymbolicRegression.Program.valueAt` — the value of a program under a table of bound values.

## Main results

* `SymbolicRegression.Machine.run_encode` — the machine pushes the value of an encoded tree.
* `SymbolicRegression.Program.valueAt_encode` — the value of an encoded tree is that of the tree.
-/

namespace SymbolicRegression

namespace Machine

variable (values : Array Float)

/-- The last opcodes of a sequence are read first. -/
theorem run_append (front back : List Opcode) (m : Machine) :
    run values (front ++ back) m = run values front (run values back m) :=
  List.foldr_append

/-- What is pushed is popped. -/
@[simp] theorem pop_push (m : Machine) (x : Float) : (m.push x).pop = (x, m) := rfl

/-- **The machine pushes the value of an encoded tree** on the stack that it finds.

**Proof sketch.** Induction on the tree. Read from the end, the right operand is pushed first and
the left one on top of it, so the operator pops its operands in order. -/
theorem run_encode (t : Tree) (m : Machine) :
    run values t.encode m = m.push (t.value values) := by
  induction t generalizing m with
  | leaf slot => simp [run, Tree.encode, step, Tree.value]
  | node op left right hl hr =>
    have hstep : ∀ rest,
        run values (op.opcode :: rest) m = step values op.opcode (run values rest m) :=
      fun _ => rfl
    rw [Tree.encode, hstep, run_append, hr, hl]
    simp [step, Tree.value]

end Machine

/-- The value of a program under a table of bound values. -/
def Program.valueAt (p : Program) (values : Array Float) : Float :=
  (Machine.run values p.code Machine.empty).pop.1

/-- The value that a machine finds does not depend on what it has evaluated before. -/
theorem Machine.evaluate_fst (m : Machine) (p : Program) (b : Bindings) :
    (m.evaluate p b).1 = p.valueAt b.values := rfl

/-- The value of an encoded tree is that of the tree. -/
theorem Program.valueAt_encode (t : Tree) (values : Array Float) :
    (Program.mk t.encode).valueAt values = t.value values := by
  rw [valueAt, Machine.run_encode, Machine.pop_push]

/-- An encoded tree is evaluated as the tree. -/
theorem Program.evaluate_encode (t : Tree) (b : Bindings) :
    (Program.mk t.encode).evaluate b = t.value b.values :=
  valueAt_encode t b.values

/-- Evaluating a complete program leaves the machine empty. -/
theorem Program.IsComplete.evaluate_eq {p : Program} (hp : p.IsComplete) (m : Machine)
    (b : Bindings) : m.evaluate p b = (p.evaluate b, Machine.empty) := by
  obtain ⟨t, rfl⟩ := hp.exists_eq_encode
  rw [evaluate_encode, Machine.evaluate, Machine.run_encode, Machine.pop_push]

end SymbolicRegression
