import SymbolicRegression.CaseFile.Basic
import SymbolicRegression.CaseFile.Error
import SymbolicRegression.Decimal.Reader
import SymbolicRegression.Text.Blank

/-!
# Reading case files

A case file holds a header of five tokens and then one row for each case:

```text
<var_count> <const_count> <min_random> <max_random> <case_count>
<x_1> ... <x_var_count> <target>
```

Blank lines may stand anywhere, and what follows the last declared case is not looked at. The
first fault in the order of the file is reported.

## Main definitions

* `SymbolicRegression.numberedLines` — the lines that hold a word, with their numbers.
* `SymbolicRegression.Header.read` — the header.
* `SymbolicRegression.FitnessCase.read` — the row of a case.
* `SymbolicRegression.Problem.read` — the problem that a text describes.
* `SymbolicRegression.Problem.load` — the problem that a file describes.
-/

set_option autoImplicit false

namespace SymbolicRegression

/-- A line that is not blank: its number, counted from one and over all lines, and its words. -/
structure NumberedLine where
  /-- The number of the line. -/
  number : Nat
  /-- The words on it. -/
  words : List (List Char)
  deriving DecidableEq, Repr

/-- The lines of a text that are not blank. -/
def numberedLines (text : String) : List NumberedLine :=
  ((Text.lines text.toList).zipIdx 1).filterMap fun (line, number) =>
    match Text.words line with
    | [] => none
    | words => some ⟨number, words⟩

/-- The first line of a case file. -/
structure Header where
  /-- The number of variables. -/
  varCount : Nat
  /-- The number of constants. -/
  constCount : Nat
  /-- The lower end of the range of constants. -/
  minRandom : Float
  /-- The upper end of the range of constants. -/
  maxRandom : Float
  /-- The number of cases. -/
  caseCount : Nat

namespace Header

/-- The count that a token of a header stands for. -/
def count (field : HeaderField) (token : List Char) : Except HeaderError Nat :=
  match Decimal.readCount token with
  | some n => .ok n
  | none => .error (.notCount field (String.ofList token))

/-- The number that a token of a header stands for. -/
def number (field : HeaderField) (token : List Char) : Except HeaderError Float :=
  match Decimal.readFinite token with
  | some x => .ok x
  | none => .error (.notFinite field (String.ofList token))

/-- Refuse a header whose fields do not describe a problem that a run can take. -/
def check (h : Header) : Except HeaderError Unit :=
  let terminals := h.varCount + h.constCount
  if UInt64.size ≤ terminals then .error .terminalOverflow
  else if terminals = 0 then .error .noTerminals
  else if 110 < terminals then .error (.tooManyTerminals terminals)
  else if h.maxRandom < h.minRandom then .error (.reversedRange h.minRandom h.maxRandom)
  else if !(h.maxRandom - h.minRandom).isFinite then .error (.wideRange h.minRandom h.maxRandom)
  else if h.caseCount = 0 then .error .noCases
  else .ok ()

/-- The header that the words of a line stand for. -/
def read : List (List Char) → Except HeaderError Header
  | [vars, consts, low, high, cases] => do
    let varCount ← count .varCount vars
    let constCount ← count .constCount consts
    let minRandom ← number .minRandom low
    let maxRandom ← number .maxRandom high
    let caseCount ← count .caseCount cases
    let h : Header := ⟨varCount, constCount, minRandom, maxRandom, caseCount⟩
    h.check
    return h
  | words => .error (.tokenCount words.length)

end Header

/-- The numbers that words stand for. -/
def readNumbers : List (List Char) → Except RowError (List Float)
  | [] => .ok []
  | word :: rest =>
    match Decimal.readFinite word with
    | some x => (readNumbers rest).map (x :: ·)
    | none => .error (.notFinite (String.ofList word))

/-- The case that the words of a line stand for: an input for each variable, then the target. -/
def FitnessCase.read (varCount : Nat) (words : List (List Char)) : Except RowError FitnessCase := do
  let values ← readNumbers words
  if values.length = varCount + 1 then
    return ⟨(values.take varCount).toArray, values.getLastD 0.0⟩
  else throw (.tokenCount (varCount + 1) values.length)

/-- The first `count` cases, one on each line. When lines are missing, the number of cases found
is reported. -/
def readCases (varCount count : Nat) (lines : List NumberedLine) :
    Except ProblemError (List FitnessCase) := do
  let rows := lines.take count
  let cases ← rows.mapM fun line =>
    (FitnessCase.read varCount line.words).mapError (ProblemError.row line.number)
  if cases.length < count then throw (.missingCases count cases.length)
  return cases

/-- The problem that a text describes. -/
def Problem.read (text : String) : Except ProblemError Problem :=
  match numberedLines text with
  | [] => .error (.header .missing)
  | first :: rest => do
    let h ← (Header.read first.words).mapError ProblemError.header
    let cases ← readCases h.varCount h.caseCount rest
    return ⟨h.varCount, h.constCount, h.minRandom, h.maxRandom, cases⟩

/-- The problem that a file describes, when `read` gives the text of a file. -/
def Problem.load (read : String → Except FileError String) (path : String) :
    Except ProblemError Problem := do
  Problem.read (← (read path).mapError (ProblemError.file path))

end SymbolicRegression
