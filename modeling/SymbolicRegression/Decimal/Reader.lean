/-!
# Reading numbers

Counts and decimal numbers, read from the characters of a token.

## Main definitions

* `SymbolicRegression.Decimal.readCount` — a count that fits into 64 bits.
* `SymbolicRegression.Decimal.Literal` — a decimal literal as written.
* `SymbolicRegression.Decimal.readFinite` — the finite number nearest to a literal.
-/

set_option autoImplicit false

namespace SymbolicRegression.Decimal

/-- The value of a sequence of digits. -/
def digitsValue (digits : List Char) : Nat :=
  digits.foldl (fun n c => 10 * n + (c.toNat - '0'.toNat)) 0

/-- A leading sign, and the characters after it. -/
def splitSign : List Char → Bool × List Char
  | '-' :: rest => (true, rest)
  | '+' :: rest => (false, rest)
  | cs => (false, cs)

/-- One or more digits after an optional plus sign, whose value is less than `2 ^ 64`. -/
def readCount (token : List Char) : Option Nat :=
  let digits := match token with
    | '+' :: rest => rest
    | _ => token
  if digits ≠ [] ∧ digits.all Char.isDigit then
    let n := digitsValue digits
    if n < UInt64.size then some n else none
  else none

/-- The decimal literal `± coefficient * 10 ^ exponent`. -/
structure Literal where
  /-- A minus sign stands before it. -/
  negative : Bool
  /-- The digits before and after the point, as one number. -/
  coefficient : Nat
  /-- The power of ten. -/
  exponent : Int
  deriving DecidableEq, Repr

namespace Literal

/-- The exponent that follows the digits of a literal: nothing, or a mark, an optional sign and
one or more digits. -/
def readExponent : List Char → Option Int
  | [] => some 0
  | c :: rest =>
    if c = 'e' ∨ c = 'E' then
      let (negative, digits) := splitSign rest
      if digits ≠ [] ∧ digits.all Char.isDigit then
        let n := digitsValue digits
        some (if negative then -(n : Int) else n)
      else none
    else none

/-- A decimal literal: an optional sign, digits with an optional point among, before or after
them, and an optional exponent. -/
def read? (token : List Char) : Option Literal :=
  let (negative, unsigned) := splitSign token
  let whole := unsigned.takeWhile Char.isDigit
  let afterWhole := unsigned.dropWhile Char.isDigit
  let (fraction, afterFraction) := match afterWhole with
    | '.' :: rest => (rest.takeWhile Char.isDigit, rest.dropWhile Char.isDigit)
    | _ => ([], afterWhole)
  if whole = [] ∧ fraction = [] then none
  else do
    let e ← readExponent afterFraction
    return ⟨negative, digitsValue (whole ++ fraction), e - fraction.length⟩

/-- The magnitude of a literal, rounded to nearest. Beyond `10 ^ 310` it is infinite and below
`10 ^ (-330)` it is zero, whatever the digits are. -/
def magnitude (l : Literal) : Float :=
  if l.coefficient = 0 then 0.0
  else
    let lead := l.exponent + ((Nat.repr l.coefficient).length : Int)
    if 310 < lead then 1.0 / 0.0
    else if lead < -330 then 0.0
    else if 0 ≤ l.exponent then Float.ofScientific l.coefficient false l.exponent.toNat
    else Float.ofScientific l.coefficient true (-l.exponent).toNat

/-- The number nearest to a literal. -/
def toFloat (l : Literal) : Float := if l.negative then -l.magnitude else l.magnitude

end Literal

/-- The number that a decimal literal stands for, if it is finite. Words for infinite and
undefined values are no literals. -/
def readFinite (token : List Char) : Option Float := do
  let l ← Literal.read? token
  let x := l.toFloat
  if x.isFinite then some x else none

end SymbolicRegression.Decimal
