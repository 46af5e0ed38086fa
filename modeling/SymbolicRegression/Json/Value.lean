import SymbolicRegression.Decimal.Text

/-!
# Writing JSON

JSON values and their text: no blanks between tokens, members in the order given.

## Main definitions

* `SymbolicRegression.Json.Value` — the values that are written.
* `SymbolicRegression.Json.Value.render` — the text of a value.
* `SymbolicRegression.Json.quote` — the text of a string.
-/

set_option autoImplicit false

namespace SymbolicRegression.Json

/-- The values that are written. -/
inductive Value where
  /-- A truth value. -/
  | bool (b : Bool)
  /-- A count. -/
  | count (n : Nat)
  /-- A floating-point number. -/
  | number (x : Float)
  /-- A string. -/
  | text (s : String)
  /-- Members with their names. -/
  | object (members : List (String × Value))

/-- Numbers have an exponent when their first digit stands further than 15 places before or five
places after the point. Every other number has a fraction. What is not finite is null, and of two
equally near decimals the one with the even last digit is taken. -/
def numberStyle : Decimal.Style where
  tie := .even
  positional e := decide (-5 ≤ e ∧ e ≤ 15)
  wholeEnding := ".0"
  nan := "null"
  infinity := "null"
  negInfinity := "null"

/-- The digit of a number below sixteen. -/
def hexDigit (n : Nat) : Char :=
  if n < 10 then Char.ofNat ('0'.toNat + n) else Char.ofNat ('a'.toNat + (n - 10))

/-- How a character is written inside a string: quotes, backslashes and control characters are
escaped, all others stand for themselves. -/
def escape (c : Char) : List Char :=
  if c = '"' then ['\\', '"']
  else if c = '\\' then ['\\', '\\']
  else if c = '\x08' then ['\\', 'b']
  else if c = '\x0c' then ['\\', 'f']
  else if c = '\n' then ['\\', 'n']
  else if c = '\r' then ['\\', 'r']
  else if c = '\t' then ['\\', 't']
  else if c.toNat < 0x20 then
    ['\\', 'u', '0', '0', hexDigit (c.toNat / 16), hexDigit (c.toNat % 16)]
  else [c]

/-- The text of a string. -/
def quote (s : String) : String := "\"" ++ String.ofList (s.toList.flatMap escape) ++ "\""

mutual

/-- The text of a value. -/
def Value.render : Value → String
  | .bool b => if b then "true" else "false"
  | .count n => Nat.repr n
  | .number x => numberStyle.render x
  | .text s => quote s
  | .object members => "\x7b" ++ renderMembers members ++ "\x7d"

/-- The text of members, with commas between them. -/
def renderMembers : List (String × Value) → String
  | [] => ""
  | [(name, value)] => quote name ++ ":" ++ value.render
  | (name, value) :: rest => quote name ++ ":" ++ value.render ++ "," ++ renderMembers rest

end

end SymbolicRegression.Json
