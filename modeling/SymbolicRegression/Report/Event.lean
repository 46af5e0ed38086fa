import SymbolicRegression.CaseFile.Basic
import SymbolicRegression.Evolution.Record
import SymbolicRegression.Settings.Basic

/-!
# Reports

A run reports its progress as events. A reporter takes one event after another and may fail at
any of them.

## Main definitions

* `SymbolicRegression.Event` — what is reported.
* `SymbolicRegression.Reporter` — who takes the events.
* `SymbolicRegression.Sink` — a text that is written to, possibly of limited length.
-/

set_option autoImplicit false

namespace SymbolicRegression

/-- What a run reports. -/
inductive Event where
  /-- The run begins, or is taken up again. -/
  | begin (settings : Settings) (problem : Problem)
  /-- A generation, with the text of its best program. -/
  | generation (record : GenerationRecord) (formula : String)
  /-- The run ends with the given best program after the given number of generations. -/
  | finish (outcome : Outcome) (generations : Nat) (bestFitness : Float) (formula : String)

/-- Why a report cannot be written. -/
inductive WriteError where
  /-- The text would become longer than allowed. -/
  | limitReached
  deriving DecidableEq, Repr

/-- The wording of an error. -/
def WriteError.message : WriteError → String
  | .limitReached => "write limit"

/-- A reporter: what an event does to its state, and whether the event was taken. -/
abbrev Reporter (ω : Type) := Event → ω → Except WriteError Unit × ω

/-- A text that is written to. -/
structure Sink where
  /-- What has been written. -/
  text : String := ""
  /-- The greatest number of bytes that may be written, if there is one. -/
  limit : Option Nat := none

namespace Sink

/-- Whether a piece may be written. -/
def admits (s : Sink) (piece : String) : Bool :=
  match s.limit with
  | none => true
  | some limit => s.text.utf8ByteSize + piece.utf8ByteSize ≤ limit

/-- Write a piece as a whole or not at all. -/
def write (s : Sink) (piece : String) : Except WriteError Unit × Sink :=
  if s.admits piece then (.ok (), { s with text := s.text ++ piece })
  else (.error .limitReached, s)

end Sink

end SymbolicRegression
