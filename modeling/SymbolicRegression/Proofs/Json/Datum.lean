import SymbolicRegression.Decimal.Reader
import SymbolicRegression.Json.Record

set_option autoImplicit false
set_option relaxedAutoImplicit false

/-!
# Reading any JSON

What any JSON text stands for, without a type that is wanted. A number that is written with digits
alone is a count of any size, and every other number is the finite floating-point number that is
nearest to it. The members of an object are kept in order.

## Main definitions

* `SymbolicRegression.Json.Datum` — what a text stands for.
* `SymbolicRegression.Json.datum` — a reader of the front of a text.
-/

namespace SymbolicRegression.Json

/-- What a JSON text stands for. -/
inductive Datum where
  /-- Nothing. -/
  | null
  /-- A truth value. -/
  | bool (b : Bool)
  /-- A number that is written with digits alone. -/
  | count (n : Nat)
  /-- Any other number. -/
  | number (x : Float)
  /-- A string. -/
  | text (s : String)
  /-- The items of an array. -/
  | array (items : List Datum)
  /-- The members of an object with their names. -/
  | object (members : List (String × Datum))

/-- Skip a number with its sign. -/
def skipSigned : List Char → Except Fault (List Char)
  | '-' :: unsigned => skipNumber unsigned
  | text => skipNumber text

/-- What the characters of a number stand for. -/
def Datum.ofToken (token : List Char) : Except Fault Datum :=
  if token.all Char.isDigit then .ok (.count (Decimal.digitsValue token))
  else
    match Decimal.readFinite token with
    | some x => .ok (.number x)
    | none => .error .malformed

/-- A number. -/
def numberDatum : Scan Datum := fun text => do
  let rest ← skipSigned text
  let number ← Datum.ofToken (text.take (text.length - rest.length))
  return (number, rest)

mutual

/-- Any value. Every value takes a character, so `fuel` is the length of the text. -/
def datumFrom : Nat → Scan Datum
  | 0, _ => .error .truncated
  | fuel + 1, text =>
    match skipBlanks text with
    | [] => .error .truncated
    | 'n' :: rest => do return (.null, ← expect ['u', 'l', 'l'] rest)
    | 't' :: rest => do return (.bool true, ← expect ['r', 'u', 'e'] rest)
    | 'f' :: rest => do return (.bool false, ← expect ['a', 'l', 's', 'e'] rest)
    | '"' :: rest => do
      let (s, rest) ← string rest
      return (.text (String.ofList s), rest)
    | '[' :: rest =>
      match skipBlanks rest with
      | ']' :: rest => .ok (.array [], rest)
      | _ => (itemsFrom fuel rest).map fun (items, rest) => (.array items, rest)
    | '\x7b' :: rest =>
      match skipBlanks rest with
      | '\x7d' :: rest => .ok (.object [], rest)
      | _ => (membersFrom fuel rest).map fun (members, rest) => (.object members, rest)
    | number => numberDatum number

/-- The items of an array up to its closing bracket. There is at least one. -/
def itemsFrom : Nat → Scan (List Datum)
  | 0, _ => .error .truncated
  | fuel + 1, text => do
    let (item, rest) ← datumFrom fuel text
    match skipBlanks rest with
    | [] => .error .truncated
    | ']' :: rest => return ([item], rest)
    | ',' :: rest => (itemsFrom fuel rest).map fun (items, rest) => (item :: items, rest)
    | _ => .error .malformed

/-- The members of an object up to its closing bracket. There is at least one. -/
def membersFrom : Nat → Scan (List (String × Datum))
  | 0, _ => .error .truncated
  | fuel + 1, text =>
    match skipBlanks text with
    | [] => .error .truncated
    | '"' :: rest => do
      let (name, rest) ← string rest
      let (value, rest) ← datumFrom fuel (← afterColon rest)
      match skipBlanks rest with
      | [] => .error .truncated
      | '\x7d' :: rest => return ([(String.ofList name, value)], rest)
      | ',' :: rest =>
        (membersFrom fuel rest).map fun (members, rest) =>
          ((String.ofList name, value) :: members, rest)
      | _ => .error .malformed
    | _ => .error .malformed

end

/-- Any value. -/
def datum : Scan Datum := fun text => datumFrom (text.length + 1) text

end SymbolicRegression.Json
