import SymbolicRegression.Json.Scanner

/-!
# Reading JSON records

Values of a known type. A record is read from an object, whose members may come in any order, or
from an array of its fields in their own order. Fields that are not given keep their default and
members of other names are passed over, but no field may be given twice and no array may be longer
than the record.

## Main definitions

* `SymbolicRegression.Json.count`, `SymbolicRegression.Json.real`, `SymbolicRegression.Json.bool` —
  simple values.
* `SymbolicRegression.Json.RecordField` — a field of a record.
* `SymbolicRegression.Json.record` — a record.
* `SymbolicRegression.Json.readWhole` — the value that a whole text stands for.
-/

set_option autoImplicit false

namespace SymbolicRegression.Json

/-- The fault of a text whose first value is not of the type wanted: a value that is not well
formed counts as such. Of arrays and objects only the bracket is looked at. -/
def wrongType : List Char → Fault
  | [] => .truncated
  | c :: rest =>
    let fault {α : Type} : Except Fault α → Fault
      | .ok _ => .mistyped
      | .error e => e
    if c = 'n' then fault (expect ['u', 'l', 'l'] rest)
    else if c = 't' then fault (expect ['r', 'u', 'e'] rest)
    else if c = 'f' then fault (expect ['a', 'l', 's', 'e'] rest)
    else if c = '-' then fault (number true rest)
    else if c.isDigit then fault (number false (c :: rest))
    else if c = '"' then fault (string rest)
    else if c = '[' ∨ c = '\x7b' then .mistyped
    else .malformed

/-- A number. -/
def anyNumber : Scan Number := fun text =>
  match skipBlanks text with
  | [] => .error .truncated
  | '-' :: rest => number true rest
  | c :: rest => if c.isDigit then number false (c :: rest) else .error (wrongType (c :: rest))

/-- A count. -/
def count : Scan Nat := fun text => do
  match ← anyNumber text with
  | (.count n, rest) => return (n, rest)
  | _ => throw .mistyped

/-- A floating-point number, which may be written as a whole number. -/
def real : Scan Float := fun text => do
  let (n, rest) ← anyNumber text
  return (n.toFloat, rest)

/-- A truth value. -/
def bool : Scan Bool := fun text =>
  match skipBlanks text with
  | [] => .error .truncated
  | 't' :: rest => do return (true, ← expect ['r', 'u', 'e'] rest)
  | 'f' :: rest => do return (false, ← expect ['a', 'l', 's', 'e'] rest)
  | other => .error (wrongType other)

/-- A field of a record: its name, and a reader of what its value does to the record. -/
structure RecordField (α : Type) where
  /-- The name of the field. -/
  name : String
  /-- Reads a value and gives the change that it makes. -/
  change : Scan (α → α)

/-- A field that a reader and a setter give. -/
def RecordField.ofScan {α β : Type} (name : String) (scan : Scan β) (set : β → α → α) :
    RecordField α :=
  ⟨name, fun text => (scan text).map fun (b, rest) => (set b, rest)⟩

variable {α : Type}

/-- The fields of a record in order, from an array whose opening bracket has been read. A comma
stands before every element but the first. -/
def elements (first : Bool) : List (RecordField α) → α → Scan α
  | [], a, text =>
    match skipBlanks text with
    | [] => .error .truncated
    | c :: rest => if c = ']' then .ok (a, rest) else .error .malformed
  | field :: fields, a, text =>
    match skipBlanks text with
    | [] => .error .truncated
    | c :: rest =>
      if c = ']' then .ok (a, rest)
      else if first then do
        let (change, rest) ← field.change (c :: rest)
        elements false fields (change a) rest
      else if c = ',' then
        match skipBlanks rest with
        | [] => .error .truncated
        | ']' :: _ => .error .malformed
        | text => do
          let (change, rest) ← field.change text
          elements false fields (change a) rest
      else .error .malformed

/-- A member of an object whose opening quote has been read: its change to the record, the names
given so far, and what follows. -/
def member (fields : List (RecordField α)) (given : List String) (text : List Char) :
    Except Fault ((α → α) × List String × List Char) := do
  let (name, rest) ← string text
  match fields.find? (·.name.toList == name) with
  | none => return (id, given, ← skipValue (← afterColon rest))
  | some field =>
    if given.contains field.name then throw .mistyped
    let (change, rest) ← field.change (← afterColon rest)
    return (change, field.name :: given, rest)

/-- The members of an object whose opening bracket has been read. A comma stands before every
member but the first. Every member takes a character, so `fuel` is the length of the text. -/
def members (fields : List (RecordField α)) : Nat → Bool → List String → α → Scan α
  | 0, _, _, _, _ => .error .truncated
  | fuel + 1, first, given, a, text =>
    let next (text : List Char) : Except Fault (α × List Char) :=
      match text with
      | [] => .error .truncated
      | c :: rest =>
        if c = '"' then do
          let (change, given, rest) ← member fields given rest
          members fields fuel false given (change a) rest
        else .error .malformed
    match skipBlanks text with
    | [] => .error .truncated
    | c :: rest =>
      if c = '\x7d' then .ok (a, rest)
      else if first then next (c :: rest)
      else if c = ',' then next (skipBlanks rest)
      else .error .malformed

/-- A record with the given fields and defaults. -/
def record (fields : List (RecordField α)) (default : α) : Scan α := fun text =>
  match skipBlanks text with
  | [] => .error .truncated
  | '[' :: rest => elements true fields default rest
  | '\x7b' :: rest => members fields (rest.length + 1) true [] default rest
  | other => .error (wrongType other)

/-- The value that a whole text stands for. -/
def readWhole (scan : Scan α) (text : String) : Except Fault α := do
  let (a, rest) ← scan text.toList
  if (skipBlanks rest).isEmpty then return a else throw .malformed

end SymbolicRegression.Json
