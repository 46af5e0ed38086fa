import SymbolicRegression.Decimal.Shortest

/-!
# Numbers as text

Floating-point numbers written in decimal. The digits are the shortest that read back; a style
says how they are laid out.

## Main definitions

* `SymbolicRegression.Decimal.Style` — the decisions of a layout.
* `SymbolicRegression.Decimal.Style.render` — a number in a style.
* `SymbolicRegression.Decimal.plain` — numbers for people to read.
-/

set_option autoImplicit false

namespace SymbolicRegression.Decimal

/-- The decisions of a layout. -/
structure Style where
  /-- Which of two equally short and equally near decimals is written. -/
  tie : Tie
  /-- Whether a number whose first digit has this power of ten is written without an exponent. -/
  positional : Int → Bool
  /-- What follows a whole number that is written without an exponent. -/
  wholeEnding : String
  /-- The text of a value that is no number. -/
  nan : String
  /-- The text of positive infinity. -/
  infinity : String
  /-- The text of negative infinity. -/
  negInfinity : String

/-- A run of `n` zeros. -/
def zeros (n : Nat) : String := String.ofList (List.replicate n '0')

/-- The digits of a decimal without an exponent: zeros are added and the point is set where the
exponent says. -/
def positionalText (wholeEnding : String) (d : Scaled) : String :=
  let digits := Nat.repr d.coefficient
  if 0 ≤ d.exponent then digits ++ zeros d.exponent.toNat ++ wholeEnding
  else
    let places := (-d.exponent).toNat
    if places < digits.length then
      let chars := digits.toList
      let whole := digits.length - places
      String.ofList (chars.take whole) ++ "." ++ String.ofList (chars.drop whole)
    else "0." ++ zeros (places - digits.length) ++ digits

/-- The digits of a decimal with one digit before the point, and a signed exponent. -/
def exponentText (d : Scaled) : String :=
  let digits := Nat.repr d.coefficient
  let lead := d.exponent + (digits.length - 1 : Nat)
  let mantissa :=
    match digits.toList with
    | first :: second :: rest => String.ofList (first :: '.' :: second :: rest)
    | short => String.ofList short
  mantissa ++ (if 0 ≤ lead then "e+" else "e-") ++ Nat.repr lead.natAbs

/-- A positive decimal in a style. -/
def Style.decimalText (style : Style) (d : Scaled) : String :=
  let lead := d.exponent + ((Nat.repr d.coefficient).length - 1 : Nat)
  if style.positional lead then positionalText style.wholeEnding d else exponentText d

/-- A magnitude in a style: zero is the digit zero. -/
def Style.magnitudeText (style : Style) (d : Dyadic) : String :=
  if d.mantissa = 0 then "0" ++ style.wholeEnding else style.decimalText (d.shortest style.tie)

/-- A number in a style. A minus sign stands before every negative number, negative zero
included. -/
def Style.render (style : Style) (x : Float) : String :=
  let bits := x.toBits
  let negative := decide (bits >>> 63 = 1)
  if x.isNaN then style.nan
  else if x.isFinite then
    (if negative then "-" else "") ++ style.magnitudeText (Dyadic.ofBits bits)
  else if negative then style.negInfinity else style.infinity

/-- Numbers for people to read: every digit is written out, a whole number has no point, and of
two equally near decimals the greater is taken. -/
def plain : Style where
  tie := .up
  positional _ := true
  wholeEnding := ""
  nan := "NaN"
  infinity := "inf"
  negInfinity := "-inf"

end SymbolicRegression.Decimal
