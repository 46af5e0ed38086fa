import SymbolicRegression.Fault
import SymbolicRegression.Operator

/-!
# Programs

A program is a formula written as a sequence of opcodes in pre-order: an operator stands before
its two operands. Opcodes below `Operator.firstOpcode` stand for terminals, slots of the table
of bound values; the four operators follow; all other opcodes are invalid.

The end of a subtree is found in one pass that keeps only the number of subtrees still awaited.
A sequence is *complete* when the subtree at its start ends where the sequence does.

## Main definitions

* `SymbolicRegression.Node.ofOpcode?` — what an opcode stands for.
* `SymbolicRegression.subtreeEnd` — where the subtree that starts at an offset ends.
* `SymbolicRegression.Program` — a sequence of opcodes.
* `SymbolicRegression.Program.ofOpcodes` — admit a complete sequence, or say what is wrong.
* `SymbolicRegression.Program.certify` — insist on a complete sequence.
-/

set_option autoImplicit false

namespace SymbolicRegression

/-- One place of a program. -/
abbrev Opcode := UInt8

/-- What an opcode stands for. -/
inductive Node where
  /-- A slot of the table of bound values. -/
  | terminal (slot : Nat)
  /-- An operator, whose two operands follow. -/
  | operator (op : Operator)
  deriving DecidableEq, Repr

/-- What an opcode stands for, if it is valid. -/
@[inline] def Node.ofOpcode? (op : Opcode) : Option Node :=
  if op < Operator.firstOpcode then some (.terminal op.toNat)
  else (Operator.ofOpcode? op).map .operator

/-- Where the last of `awaited` subtrees ends, when the first of them starts at the head of the
sequence and the head has offset `offset`. -/
def forestEnd : List Opcode → (awaited offset : Nat) → Option Nat
  | _, 0, offset => some offset
  | [], _ + 1, _ => none
  | op :: rest, awaited + 1, offset =>
    match Node.ofOpcode? op with
    | none => none
    | some (.terminal _) => forestEnd rest awaited (offset + 1)
    | some (.operator _) => forestEnd rest (awaited + 2) (offset + 1)

/-- The offset just past the subtree that starts at `start`. There is none if the subtree runs
off the end of the sequence or holds an invalid opcode. -/
def subtreeEnd (code : List Opcode) (start : Nat) : Option Nat :=
  forestEnd (code.drop start) 1 start

/-- A sequence of opcodes read as a formula. -/
structure Program where
  /-- The opcodes in pre-order. -/
  code : List Opcode
  deriving DecidableEq, Repr

/-- Why a sequence of opcodes is not exactly one formula. -/
inductive ProgramError where
  /-- There is no opcode. -/
  | empty
  /-- The first invalid opcode and its offset. -/
  | invalidOpcode (offset : Nat) (opcode : Opcode)
  /-- The formula needs more opcodes than there are. -/
  | truncated
  /-- The formula ends at `stop`, before the sequence does. -/
  | trailing (stop : Nat)
  deriving DecidableEq, Repr

/-- The wording of an error. -/
def ProgramError.message : ProgramError → String
  | .empty => "empty program"
  | .invalidOpcode offset opcode => s!"invalid opcode {opcode.toNat} at offset {offset}"
  | .truncated => "program is truncated"
  | .trailing stop => s!"program ends at offset {stop} with opcodes left over"

/-- The first invalid opcode at or after `offset`, with its offset. -/
def firstInvalid : List Opcode → (offset : Nat) → Option (Nat × Opcode)
  | [], _ => none
  | op :: rest, offset =>
    match Node.ofOpcode? op with
    | none => some (offset, op)
    | some _ => firstInvalid rest (offset + 1)

namespace Program

/-- Admit a sequence that is exactly one formula. An invalid opcode anywhere is reported before
a formula that ends too early or too late. -/
def ofOpcodes (code : List Opcode) : Except ProgramError Program :=
  if code.isEmpty then .error .empty else
  match firstInvalid code 0 with
  | some (offset, op) => .error (.invalidOpcode offset op)
  | none =>
    match subtreeEnd code 0 with
    | none => .error .truncated
    | some stop => if stop < code.length then .error (.trailing stop) else .ok ⟨code⟩

/-- The number of opcodes. -/
def length (p : Program) : Nat := p.code.length

/-- Whether there is no opcode. -/
def isEmpty (p : Program) : Bool := p.code.isEmpty

/-- The number of nodes of the tree at the start of the sequence, or all opcodes if the sequence
holds no tree. -/
def nodeCount (p : Program) : Nat := (subtreeEnd p.code 0).getD p.code.length

/-- The sequence is exactly one formula. -/
def IsComplete (p : Program) : Prop := subtreeEnd p.code 0 = some p.code.length

instance (p : Program) : Decidable p.IsComplete :=
  inferInstanceAs (Decidable (subtreeEnd p.code 0 = some p.code.length))

/-- Let a program pass that an operation has put together. It is a fault of the operation's
operands if the program is not complete. -/
def certify (p : Program) : Except Fault Program :=
  if p.IsComplete then .ok p else .error .incomplete

/-- The number of bytes that a program takes in a row of programs, where it is stood for by the
place, the size and the capacity of its opcodes. -/
def entryBytes : Nat := 24

end Program

end SymbolicRegression
