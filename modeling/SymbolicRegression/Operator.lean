/-!
# Operators

The four binary operators of a formula. Division is guarded: a denominator too close to zero
leaves the numerator as it is, so no formula divides by zero.

## Main definitions

* `SymbolicRegression.Operator` — the operators.
* `SymbolicRegression.guardedDiv` — guarded division.
* `SymbolicRegression.Operator.apply` — the value of an operator at two operands.
-/

set_option autoImplicit false

namespace SymbolicRegression

/-- The operators of a formula. -/
inductive Operator where
  /-- Addition. -/
  | add
  /-- Subtraction. -/
  | sub
  /-- Multiplication. -/
  | mul
  /-- Guarded division. -/
  | div
  deriving DecidableEq, Repr

/-- A denominator whose magnitude is at most this does not divide. -/
def divisionGuard : Float := 0.001

/-- Division that gives back the numerator when the denominator is at most `divisionGuard` in
magnitude. -/
def guardedDiv (num den : Float) : Float :=
  if den.abs ≤ divisionGuard then num else num / den

namespace Operator

/-- The operators in the order of their opcodes. -/
def all : List Operator := [add, sub, mul, div]

/-- The opcode of the first operator. All smaller opcodes stand for terminals. -/
def firstOpcode : UInt8 := 110

/-- The opcode of an operator. -/
def opcode : Operator → UInt8
  | add => 110
  | sub => 111
  | mul => 112
  | div => 113

/-- The operator that an opcode stands for. -/
@[inline] def ofOpcode? (op : UInt8) : Option Operator :=
  match op with
  | 110 => some add
  | 111 => some sub
  | 112 => some mul
  | 113 => some div
  | _ => none

/-- The sign written between the operands. -/
def symbol : Operator → Char
  | add => '+'
  | sub => '-'
  | mul => '*'
  | div => '/'

/-- The value of an operator at two operands. -/
@[inline] def apply : Operator → Float → Float → Float
  | add, left, right => left + right
  | sub, left, right => left - right
  | mul, left, right => left * right
  | div, left, right => guardedDiv left right

end Operator

end SymbolicRegression
