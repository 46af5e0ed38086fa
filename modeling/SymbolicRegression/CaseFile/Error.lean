import SymbolicRegression.Decimal.Text
import SymbolicRegression.Files.Directory

/-!
# Faults of a case file

What can be wrong with a case file, and the wording of each fault.

## Main definitions

* `SymbolicRegression.HeaderError`, `SymbolicRegression.RowError` — what is wrong with a line.
* `SymbolicRegression.ProblemError` — why a file describes no problem.
-/

set_option autoImplicit false

namespace SymbolicRegression

/-- The fields of a header, in order. -/
inductive HeaderField where
  /-- The number of variables. -/
  | varCount
  /-- The number of constants. -/
  | constCount
  /-- The lower end of the range of constants. -/
  | minRandom
  /-- The upper end of the range of constants. -/
  | maxRandom
  /-- The number of cases. -/
  | caseCount
  deriving DecidableEq, Repr

/-- The name of a field. -/
def HeaderField.name : HeaderField → String
  | .varCount => "var_count"
  | .constCount => "const_count"
  | .minRandom => "min_random"
  | .maxRandom => "max_random"
  | .caseCount => "case_count"

/-- What is wrong with a header. -/
inductive HeaderError where
  /-- There is no line but blank ones. -/
  | missing
  /-- There are `found` tokens and not five. -/
  | tokenCount (found : Nat)
  /-- The token of a field is no count. -/
  | notCount (field : HeaderField) (token : String)
  /-- The token of a field is no finite number. -/
  | notFinite (field : HeaderField) (token : String)
  /-- The number of terminals does not fit into 64 bits. -/
  | terminalOverflow
  /-- There is neither a variable nor a constant. -/
  | noTerminals
  /-- There are more terminals than opcodes for them. -/
  | tooManyTerminals (count : Nat)
  /-- The range of constants ends below its start. -/
  | reversedRange (low high : Float)
  /-- The width of the range of constants is not finite. -/
  | wideRange (low high : Float)
  /-- No case is declared. -/
  | noCases

/-- The wording of an error. -/
def HeaderError.message : HeaderError → String
  | .missing => "file is empty"
  | .tokenCount found => s!"expected 5 tokens, found {found}"
  | .notCount field token => field.name ++ " `" ++ token ++ "` is not a count"
  | .notFinite field token => field.name ++ " `" ++ token ++ "` is not a finite number"
  | .terminalOverflow => "terminal count overflows"
  | .noTerminals => "at least one variable or constant is required"
  | .tooManyTerminals count => s!"{count} terminals exceed the limit of 110"
  | .reversedRange low high =>
    "max_random " ++ Decimal.plain.render high ++ " is below min_random " ++
      Decimal.plain.render low
  | .wideRange low high =>
    "constant range [" ++ Decimal.plain.render low ++ ", " ++ Decimal.plain.render high ++
      ") is too wide"
  | .noCases => "case_count must be at least 1"

/-- What is wrong with the row of a case. -/
inductive RowError where
  /-- A token is no finite number. -/
  | notFinite (token : String)
  /-- There are `found` tokens and not `expected`. -/
  | tokenCount (expected found : Nat)
  deriving DecidableEq, Repr

/-- The wording of an error. -/
def RowError.message : RowError → String
  | .notFinite token => "`" ++ token ++ "` is not a finite number"
  | .tokenCount expected found => s!"expected {expected} tokens, found {found}"

/-- Why a file describes no problem. -/
inductive ProblemError where
  /-- The file has no text. -/
  | file (path : String) (error : FileError)
  /-- The header is wrong. -/
  | header (error : HeaderError)
  /-- The row on a line, counted from one, is wrong. -/
  | row (line : Nat) (error : RowError)
  /-- There are fewer rows than the header declares. -/
  | missingCases (expected found : Nat)

/-- The wording of an error. -/
def ProblemError.message : ProblemError → String
  | .file path error => s!"cannot read case file {path}: {error.message}"
  | .header error => s!"incorrect data format in header: {error.message}"
  | .row line error => s!"incorrect data format on line {line}: {error.message}"
  | .missingCases expected found =>
    s!"header declares {expected} fitness cases but only {found} found"

/-- The wording of the cause of an error, if it has one of its own. -/
def ProblemError.source : ProblemError → Option String
  | .file _ error => some error.message
  | _ => none

end SymbolicRegression
