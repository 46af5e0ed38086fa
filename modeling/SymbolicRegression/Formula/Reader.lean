import SymbolicRegression.Decimal.Reader
import SymbolicRegression.Operator

/-!
# Reading formulas

The grammar of written formulas, `E ::= leaf | '(' E ' ' op ' ' E ')'`. A leaf `X1`, `X2`, … is a
variable and every other leaf is a number.

## Main definitions

* `SymbolicRegression.Term` — a formula over variables and numbers.
* `SymbolicRegression.Term.read` — the formula that a text stands for.
* `SymbolicRegression.Term.value` — its value at a row of inputs.
-/

set_option autoImplicit false

namespace SymbolicRegression

/-- A formula over variables and numbers. -/
inductive Term where
  /-- A variable, counted from zero. -/
  | input (index : Nat)
  /-- A number. -/
  | number (value : Float)
  /-- An operator with its operands. -/
  | node (op : Operator) (left right : Term)

/-- The operator that a sign stands for. -/
def Operator.ofSymbol? (c : Char) : Option Operator := Operator.all.find? (·.symbol == c)

namespace Term

/-- The value of a formula at a row of inputs. A variable past the end of the row is zero. -/
def value (inputs : Array Float) : Term → Float
  | input index => inputs.getD index 0.0
  | number value => value
  | node op left right => op.apply (left.value inputs) (right.value inputs)

/-- The characters of a leaf: none of them is a blank or a bracket. -/
def isLeafChar (c : Char) : Bool := c ≠ ' ' ∧ c ≠ '(' ∧ c ≠ ')'

/-- The leaf that a token stands for. -/
def ofLeaf? : List Char → Option Term
  | 'X' :: digits => do
    let n ← Decimal.readCount digits
    if n = 0 then none else some (input (n - 1))
  | token => (Decimal.readFinite token).map number

/-- Read a formula from the start of a text, and give what follows it. Every bracket and leaf
takes a character, so a text has at most as many nested brackets as `fuel`, its length. -/
def readFrom : Nat → List Char → Option (Term × List Char)
  | 0, _ => none
  | fuel + 1, '(' :: rest => do
    let (left, rest) ← readFrom fuel rest
    match rest with
    | ' ' :: sign :: ' ' :: rest =>
      let op ← Operator.ofSymbol? sign
      let (right, rest) ← readFrom fuel rest
      match rest with
      | ')' :: rest => some (node op left right, rest)
      | _ => none
    | _ => none
  | _ + 1, text => do
    let leaf ← ofLeaf? (text.takeWhile isLeafChar)
    some (leaf, text.dropWhile isLeafChar)

/-- The formula that a whole text stands for. -/
def read (text : List Char) : Option Term :=
  match readFrom (text.length + 1) text with
  | some (t, []) => some t
  | _ => none

end Term

end SymbolicRegression
