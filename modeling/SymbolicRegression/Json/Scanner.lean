/-!
# Scanning JSON

Pieces of JSON read from the front of a text. A text may end too early, may break the grammar, or
may hold a value of another type than is wanted; the first fault in the order of the text is
reported, so a value of the wrong type hides what comes after it.

## Main definitions

* `SymbolicRegression.Json.Fault` — what is wrong with a text.
* `SymbolicRegression.Json.Scan` — a reader of the front of a text.
* `SymbolicRegression.Json.string`, `SymbolicRegression.Json.number` — strings and numbers.
* `SymbolicRegression.Json.skipValue` — any value, left unread.
-/

set_option autoImplicit false

namespace SymbolicRegression.Json

/-- What is wrong with a text. -/
inductive Fault where
  /-- It ends too early. -/
  | truncated
  /-- It breaks the grammar, or holds a number that is too large. -/
  | malformed
  /-- A value has the wrong type. -/
  | mistyped
  deriving DecidableEq, Repr

/-- The wording of a fault. -/
def Fault.message : Fault → String
  | .truncated => "the text ends too early"
  | .malformed => "the text is not well formed"
  | .mistyped => "a value has the wrong type"

/-- A reader of the front of a text, which gives what it has read and what follows. -/
abbrev Scan (α : Type) := List Char → Except Fault (α × List Char)

/-- The characters that may stand between tokens. -/
def isBlank (c : Char) : Bool := c = ' ' ∨ c = '\n' ∨ c = '\t' ∨ c = '\r'

/-- A text without the blanks at its front. -/
def skipBlanks (text : List Char) : List Char := text.dropWhile isBlank

/-- What follows the given characters. -/
def expect : List Char → List Char → Except Fault (List Char)
  | [], text => .ok text
  | _ :: _, [] => .error .truncated
  | c :: cs, d :: text => if c = d then expect cs text else .error .malformed

/-! ## Strings -/

/-- The value of a hexadecimal digit. -/
def hexValue? (c : Char) : Option Nat :=
  if '0' ≤ c ∧ c ≤ '9' then some (c.toNat - '0'.toNat)
  else if 'a' ≤ c ∧ c ≤ 'f' then some (c.toNat - 'a'.toNat + 10)
  else if 'A' ≤ c ∧ c ≤ 'F' then some (c.toNat - 'A'.toNat + 10)
  else none

/-- The code unit that four hexadecimal digits stand for. A text of less than four bytes ends too
early. -/
def codeUnit : Scan Nat
  | a :: b :: c :: d :: rest =>
    match hexValue? a, hexValue? b, hexValue? c, hexValue? d with
    | some a, some b, some c, some d => .ok (((a * 16 + b) * 16 + c) * 16 + d, rest)
    | _, _, _, _ => .error .malformed
  | short =>
    if (String.ofList short).utf8ByteSize < 4 then .error .truncated else .error .malformed

/-- The character that a single letter after a backslash stands for. -/
def shortEscape? : Char → Option Char
  | '"' => some '"'
  | '\\' => some '\\'
  | '/' => some '/'
  | 'b' => some '\x08'
  | 'f' => some '\x0c'
  | 'n' => some '\n'
  | 'r' => some '\r'
  | 't' => some '\t'
  | _ => none

/-- The character that code units stand for: a unit of its own, or a high surrogate followed by
an escaped low one. -/
def escapedChar (text : List Char) : Except Fault (Char × List Char) := do
  let (high, rest) ← codeUnit text
  if 0xdc00 ≤ high ∧ high ≤ 0xdfff then throw .malformed
  else if high < 0xd800 ∨ 0xdbff < high then return (Char.ofNat high, rest)
  else
    let rest ← expect ['\\', 'u'] rest
    let (low, rest) ← codeUnit rest
    if 0xdc00 ≤ low ∧ low ≤ 0xdfff then
      return (Char.ofNat ((high - 0xd800) * 0x400 + (low - 0xdc00) + 0x10000), rest)
    else throw .malformed

/-- The characters of a string up to its closing quote. Every step takes a character, so `fuel`
is the length of the text. -/
def stringFrom : Nat → List Char → Scan (List Char)
  | 0, _, _ => .error .truncated
  | _ + 1, _, [] => .error .truncated
  | _ + 1, done, '"' :: rest => .ok (done.reverse, rest)
  | _ + 1, _, ['\\'] => .error .truncated
  | fuel + 1, done, '\\' :: 'u' :: rest => do
    let (c, rest) ← escapedChar rest
    stringFrom fuel (c :: done) rest
  | fuel + 1, done, '\\' :: c :: rest =>
    match shortEscape? c with
    | some c => stringFrom fuel (c :: done) rest
    | none => .error .malformed
  | fuel + 1, done, c :: rest =>
    if c.toNat < 0x20 then .error .malformed else stringFrom fuel (c :: done) rest

/-- A string whose opening quote has been read. -/
def string : Scan (List Char) := fun text => stringFrom (text.length + 1) [] text

/-- Skip the characters of a string up to its closing quote, without pairing surrogates. -/
def skipStringFrom : Nat → List Char → Except Fault (List Char)
  | 0, _ => .error .truncated
  | _ + 1, [] => .error .truncated
  | _ + 1, '"' :: rest => .ok rest
  | _ + 1, ['\\'] => .error .truncated
  | fuel + 1, '\\' :: 'u' :: rest => do
    let (_, rest) ← codeUnit rest
    skipStringFrom fuel rest
  | fuel + 1, '\\' :: c :: rest =>
    if (shortEscape? c).isSome then skipStringFrom fuel rest else .error .malformed
  | fuel + 1, c :: rest =>
    if c.toNat < 0x20 then .error .malformed else skipStringFrom fuel rest

/-- Skip a string whose opening quote has been read. -/
def skipString (text : List Char) : Except Fault (List Char) :=
  skipStringFrom (text.length + 1) text

/-! ## Numbers -/

/-- A number as read. -/
inductive Number where
  /-- A whole number without a sign that fits into 64 bits. -/
  | count (n : Nat)
  /-- Any other number. -/
  | real (x : Float)

/-- The value of a number. -/
def Number.toFloat : Number → Float
  | count n => Float.ofNat n
  | real x => x

/-- Append digits to a significand as long as it fits into 64 bits. Gives the significand, how
many digits were appended, and what follows them. -/
def appendDigits : Nat → List Char → Nat × Nat × List Char
  | n, [] => (n, 0, [])
  | n, c :: rest =>
    let next := 10 * n + (c.toNat - '0'.toNat)
    if c.isDigit ∧ next < UInt64.size then
      let (m, taken, rest) := appendDigits next rest
      (m, taken + 1, rest)
    else (n, 0, c :: rest)

/-- A power of ten. -/
def powerOfTen (n : Nat) : Float := Float.ofScientific 1 false n

/-- A number divided by a power of ten, by at most `10 ^ 308` at a time. A significand has become
zero after three divisions. -/
def divideByPower : Nat → Float → Nat → Float
  | 0, x, _ => x
  | fuel + 1, x, n =>
    if n ≤ 308 then x / powerOfTen n
    else if x == 0.0 then x
    else divideByPower fuel (x / powerOfTen 308) (n - 308)

/-- The value of a significand with a power of ten: the rounded significand, multiplied or divided
by the rounded power. There is none beyond the largest finite number. -/
def scaled (significand : Nat) (exponent : Int) : Except Fault Float :=
  let x := Float.ofNat significand
  if exponent < 0 then .ok (divideByPower 4 x (-exponent).toNat)
  else if 308 < exponent then if x == 0.0 then .ok x else .error .malformed
  else
    let y := x * powerOfTen exponent.toNat
    if y.isInf then .error .malformed else .ok y

/-- The magnitude of a number from its exponent mark on. An exponent of `2 ^ 31` or more counts as
beyond all bounds. -/
def exponentPart (significand : Nat) (start : Int) (text : List Char) :
    Except Fault (Float × List Char) :=
  let (negative, digits) := match text with
    | '-' :: rest => (true, rest)
    | '+' :: rest => (false, rest)
    | _ => (false, text)
  match digits with
  | [] => .error .truncated
  | c :: _ =>
    if c.isDigit then
      let written := digits.takeWhile Char.isDigit
      let n := written.foldl (fun n c => 10 * n + (c.toNat - '0'.toNat)) 0
      let rest := digits.dropWhile Char.isDigit
      if 2147483648 ≤ n then
        if significand ≠ 0 ∧ !negative then .error .malformed else .ok (0.0, rest)
      else
        (scaled significand (if negative then start - n else start + n)).map fun x => (x, rest)
    else .error .malformed

/-- The magnitude of a number after its digits, and an exponent if one follows. -/
def afterDigits (significand : Nat) (exponent : Int) : Scan Float
  | c :: rest =>
    if c = 'e' ∨ c = 'E' then exponentPart significand exponent rest
    else (scaled significand exponent).map fun x => (x, c :: rest)
  | [] => (scaled significand exponent).map fun x => (x, [])

/-- The magnitude of a number after its decimal point. Digits that do not fit into the
significand are dropped. -/
def fractionPart (significand : Nat) (exponent : Int) (text : List Char) :
    Except Fault (Float × List Char) :=
  let (m, taken, rest) := appendDigits significand text
  match rest with
  | [] => if taken = 0 then .error .truncated else afterDigits m (exponent - taken) []
  | c :: _ =>
    if c.isDigit then afterDigits m (exponent - taken) (rest.dropWhile Char.isDigit)
    else if taken = 0 then .error .malformed
    else afterDigits m (exponent - taken) rest

/-- The magnitude of a number that is not whole, too large for 64 bits or written with an
exponent. -/
def realPart (significand : Nat) (exponent : Int) : Scan Float
  | '.' :: rest => fractionPart significand exponent rest
  | text => afterDigits significand exponent text

/-- Whether a fraction or an exponent follows. -/
def continuesNumber : List Char → Bool
  | c :: _ => c = '.' ∨ c = 'e' ∨ c = 'E'
  | [] => false

/-- The number of given sign with a magnitude. -/
def signed (negative : Bool) (x : Float) : Number := .real (if negative then -x else x)

/-- A number whose sign has been read. It starts with a digit, and with a zero only if no digit
follows that. -/
def number (negative : Bool) : Scan Number
  | [] => .error .truncated
  | '0' :: rest =>
    if (rest.head?.map Char.isDigit).getD false then .error .malformed
    else if continuesNumber rest then
      (realPart 0 0 rest).map fun (x, rest) => (signed negative x, rest)
    else .ok (if negative then .real (-0.0) else .count 0, rest)
  | c :: rest =>
    if c.isDigit then
      let (n, _, rest) := appendDigits 0 (c :: rest)
      let dropped := rest.takeWhile Char.isDigit
      if dropped ≠ [] then
        (realPart n dropped.length (rest.dropWhile Char.isDigit)).map fun (x, rest) =>
          (signed negative x, rest)
      else if continuesNumber rest then
        (realPart n 0 rest).map fun (x, rest) => (signed negative x, rest)
      else .ok (if negative then .real (-(Float.ofNat n)) else .count n, rest)
    else .error .malformed

/-- Skip an exponent whose mark has been read. -/
def skipExponent (text : List Char) : Except Fault (List Char) :=
  let digits := match text with
    | '-' :: rest => rest
    | '+' :: rest => rest
    | _ => text
  if (digits.head?.map Char.isDigit).getD false then .ok (digits.dropWhile Char.isDigit)
  else .error .malformed

/-- Skip an exponent if there is one. -/
def skipOptionalExponent : List Char → Except Fault (List Char)
  | c :: rest => if c = 'e' ∨ c = 'E' then skipExponent rest else .ok (c :: rest)
  | [] => .ok []

/-- Skip a fraction and an exponent if there are any. -/
def skipFraction : List Char → Except Fault (List Char)
  | '.' :: rest =>
    if (rest.head?.map Char.isDigit).getD false then
      skipOptionalExponent (rest.dropWhile Char.isDigit)
    else .error .malformed
  | text => skipOptionalExponent text

/-- Skip a number whose sign has been read. A text that ends within one breaks the grammar. -/
def skipNumber : List Char → Except Fault (List Char)
  | '0' :: rest =>
    if (rest.head?.map Char.isDigit).getD false then .error .malformed else skipFraction rest
  | c :: rest =>
    if c.isDigit then skipFraction (rest.dropWhile Char.isDigit) else .error .malformed
  | [] => .error .malformed

/-! ## Any value -/

/-- What a value may stand in. -/
inductive Enclosure where
  /-- An array. -/
  | array
  /-- An object. -/
  | object
  deriving DecidableEq, Repr

/-- The bracket that closes an enclosure. -/
def Enclosure.closing : Enclosure → Char
  | .array => ']'
  | .object => '\x7d'

/-- What follows the colon after a name. -/
def afterColon (text : List Char) : Except Fault (List Char) :=
  match skipBlanks text with
  | [] => .error .truncated
  | c :: rest => if c = ':' then .ok rest else .error .malformed

/-- Skip the name of a member and the colon after it. -/
def skipName (text : List Char) : Except Fault (List Char) :=
  match skipBlanks text with
  | [] => .error .truncated
  | c :: rest => if c = '"' then do afterColon (← skipString rest) else .error .malformed

/-- What the next value of an enclosure follows: in an object, its name. -/
def beforeValue (enclosure : Enclosure) (text : List Char) : Except Fault (List Char) :=
  match enclosure with
  | .array => .ok text
  | .object => skipName text

/-- Close the enclosures that end after a value, innermost first. Gives the enclosures still open,
and the text from their next value on; if none is open, the text after them. -/
def afterValue : List Enclosure → List Char → Except Fault (List Enclosure × List Char)
  | [], text => .ok ([], text)
  | inner :: outer, text =>
    match skipBlanks text with
    | [] => .error .truncated
    | c :: rest =>
      if c = ',' then (beforeValue inner rest).map fun text => (inner :: outer, text)
      else if c = inner.closing then afterValue outer rest
      else .error .malformed

/-- Skip a value and the rest of the enclosures that it stands in. Every value takes a character,
so `fuel` is the length of the text. -/
def skipFrom : Nat → List Enclosure → List Char → Except Fault (List Char)
  | 0, _, _ => .error .truncated
  | fuel + 1, opened, text =>
    let finish (opened : List Enclosure) (text : List Char) : Except Fault (List Char) := do
      let (opened, text) ← afterValue opened text
      if opened.isEmpty then return text else skipFrom fuel opened text
    let enter (enclosure : Enclosure) (text : List Char) : Except Fault (List Char) :=
      match skipBlanks text with
      | [] => .error .truncated
      | c :: rest =>
        if c = enclosure.closing then finish opened rest
        else do skipFrom fuel (enclosure :: opened) (← beforeValue enclosure (c :: rest))
    match skipBlanks text with
    | [] => .error .truncated
    | 'n' :: rest => do finish opened (← expect ['u', 'l', 'l'] rest)
    | 't' :: rest => do finish opened (← expect ['r', 'u', 'e'] rest)
    | 'f' :: rest => do finish opened (← expect ['a', 'l', 's', 'e'] rest)
    | '"' :: rest => do finish opened (← skipString rest)
    | '-' :: rest => do finish opened (← skipNumber rest)
    | '[' :: rest => enter .array rest
    | '\x7b' :: rest => enter .object rest
    | c :: rest =>
      if c.isDigit then do finish opened (← skipNumber (c :: rest)) else .error .malformed

/-- Skip a value. -/
def skipValue (text : List Char) : Except Fault (List Char) := skipFrom (text.length + 1) [] text

end SymbolicRegression.Json
