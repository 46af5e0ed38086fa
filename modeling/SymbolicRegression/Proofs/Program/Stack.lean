import Mathlib.Tactic.Common
import SymbolicRegression.Proofs.Program.Value

set_option autoImplicit false
set_option relaxedAutoImplicit false

/-!
# The stack during an evaluation

The machine has read some suffix of the program at every moment. A suffix of an encoded tree is a
row of encoded trees, and the stack holds their values, the first of them on top. So an operator
finds the values of its two operands where it looks for them, the machine never has to make up for
an operand that is missing, and the whole program leaves one value behind, that of its tree.

## Main results

* `SymbolicRegression.Tree.exists_forest_of_suffix` — suffixes of encodings are rows of encodings.
* `SymbolicRegression.Machine.stack_run_flatMap` — the stack after a row of encodings.
* `SymbolicRegression.Machine.operands_on_stack` — what an operator finds on the stack.
* `SymbolicRegression.Program.IsComplete.evaluate_eq_value` — a complete program is evaluated as
  the tree that it encodes.
-/

namespace SymbolicRegression

namespace Tree

/-- **A suffix of a row of encoded trees is a row of encoded trees.**

**Proof sketch.** Induction on what comes before the suffix. Its first opcode is a leaf, which is a
tree of its own, or an operator, whose operands are left over as two trees of the row. -/
theorem exists_forest_of_suffix {ts : List Tree} {front back : List Opcode}
    (h : ts.flatMap encode = front ++ back) : ∃ us : List Tree, back = us.flatMap encode := by
  induction front generalizing ts with
  | nil => exact ⟨ts, h.symm⟩
  | cons op front ih =>
    cases ts with
    | nil => simp at h
    | cons t ts =>
      cases t with
      | leaf slot =>
        simp only [List.flatMap_cons, encode, List.cons_append, List.cons.injEq] at h
        exact ih h.2
      | node o left right =>
        simp only [List.flatMap_cons, encode, List.cons_append, List.append_assoc,
          List.cons.injEq] at h
        refine @ih (left :: right :: ts) ?_
        simp only [List.flatMap_cons, h.2]

/-- A row of encoded trees that starts with the opcode of an operator starts with the encoded
operands of this operator behind it. -/
theorem exists_operands {ts : List Tree} {op : Opcode} {o : Operator} {back : List Opcode}
    (hop : Node.ofOpcode? op = some (.operator o)) (h : ts.flatMap encode = op :: back) :
    ∃ (left right : Tree) (us : List Tree), back = (left :: right :: us).flatMap encode := by
  cases ts with
  | nil => simp at h
  | cons t ts =>
    cases t with
    | leaf slot =>
      -- the opcode of a leaf is that of no operator
      obtain rfl := (List.cons.inj h).1
      simp at hop
    | node o' left right =>
      simp only [List.flatMap_cons, encode, List.cons_append, List.append_assoc,
        List.cons.injEq] at h
      exact ⟨left, right, ts, by simp only [List.flatMap_cons, h.2]⟩

end Tree

namespace Machine

variable (values : Array Float)

/-- **The stack after a row of encoded trees**: the values of the trees, the first one on top, and
below them what was there before. -/
theorem stack_run_flatMap (ts : List Tree) (m : Machine) :
    (run values (ts.flatMap Tree.encode) m).stack = ts.map (Tree.value values) ++ m.stack := by
  induction ts with
  | nil => rfl
  | cons t ts ih =>
    rw [List.flatMap_cons, run_append, run_encode, List.map_cons, List.cons_append, ← ih]
    rfl

/-- **What an operator finds on the stack**: when the machine comes to an operator in an encoded
tree, the values of its two operands are on top, the left one first. -/
theorem operands_on_stack {t : Tree} {front back : List Opcode} {op : Opcode} {o : Operator}
    (hcode : t.encode = front ++ op :: back) (hop : Node.ofOpcode? op = some (.operator o)) :
    ∃ (left right : Tree) (rest : List Opcode), back = left.encode ++ (right.encode ++ rest) ∧
      (run values back empty).stack =
        left.value values :: right.value values :: (run values rest empty).stack := by
  have hforest : [t].flatMap Tree.encode = front ++ op :: back := by simpa using hcode
  obtain ⟨ts, hts⟩ := Tree.exists_forest_of_suffix hforest
  obtain ⟨left, right, us, rfl⟩ := Tree.exists_operands hop hts.symm
  refine ⟨left, right, us.flatMap Tree.encode, by simp, ?_⟩
  rw [stack_run_flatMap, stack_run_flatMap]
  rfl

end Machine

/-- **A complete program is evaluated as the tree that it encodes.** There is just one such tree.
Whatever a machine did before, it finds the value of this tree and is left empty. On the way it
comes to every operator with the values of the operands on top of the stack, and the last opcode
that it reads leaves one value there, so that it never takes a value from an empty stack. -/
theorem Program.IsComplete.evaluate_eq_value {p : Program} (hp : p.IsComplete) :
    ∃ t : Tree, (∀ t' : Tree, p.code = t'.encode ↔ t' = t) ∧
      ∀ (m : Machine) (b : Bindings),
        m.evaluate p b = (t.value b.values, Machine.empty) ∧
        (Machine.run b.values p.code Machine.empty).stack = [t.value b.values] ∧
        ∀ (front back : List Opcode) (op : Opcode) (o : Operator),
          p.code = front ++ op :: back → Node.ofOpcode? op = some (.operator o) →
          ∃ (left right : Tree) (rest : List Opcode),
            back = left.encode ++ (right.encode ++ rest) ∧
            (Machine.run b.values back Machine.empty).stack =
              left.value b.values :: right.value b.values ::
                (Machine.run b.values rest Machine.empty).stack := by
  obtain ⟨t, rfl⟩ := hp.exists_eq_encode
  refine ⟨t, fun t' => Tree.encode_inj.trans eq_comm, fun m b => ⟨?_, ?_, ?_⟩⟩
  · rw [Machine.evaluate, Machine.run_encode, Machine.pop_push]
  · rw [Machine.run_encode]
    rfl
  · intro front back op o hcode hop
    exact Machine.operands_on_stack b.values hcode hop

/-- A quotient of a product and a difference is evaluated as its tree, by a machine that two
values have been left in. -/
theorem Program.IsComplete.evaluate_eq_value_sample :
    let p : Program := ⟨[113, 112, 0, 1, 111, 1, 0]⟩
    let m : Machine := ⟨[7.0, 8.0]⟩
    let b : Bindings := ⟨#[3.0, 2.5], 1, by decide⟩
    p.IsComplete ∧ ∃ t : Tree, (∀ t' : Tree, p.code = t'.encode ↔ t' = t) ∧
      m.evaluate p b = (t.value b.values, Machine.empty) ∧
      (Machine.run b.values p.code Machine.empty).stack = [t.value b.values] := by
  intro p m b
  have hp : p.IsComplete := by decide
  obtain ⟨t, ht, hvalue⟩ := Program.IsComplete.evaluate_eq_value hp
  obtain ⟨hevaluate, hstack, -⟩ := hvalue m b
  exact ⟨hp, t, ht, hevaluate, hstack⟩

end SymbolicRegression
