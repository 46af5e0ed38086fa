import SymbolicRegression.Evolution.Basic

/-!
# Runs with reports

A run to its end, reporting its beginning, the last recorded generation, every generation made
from then on, and its result. When a report fails the run stops there, and it can be taken up
again from the state it has reached.

## Main definitions

* `SymbolicRegression.Running` — a run that reports.
* `SymbolicRegression.Evolution.run` — run to the end.
-/

set_option autoImplicit false

namespace SymbolicRegression

/-- A computation on the state of a run and of its reporter, both of which outlive an error. -/
abbrev Running (σ ω : Type) := ExceptT EvolutionError (StateM (Evolution σ × ω))

namespace Running

variable {σ ω : Type}

/-- The state of the run. -/
def evolution : Running σ ω (Evolution σ) := do return (← get).1

/-- An answer, or the fault that there is instead. -/
def answer {α : Type} : Except Fault α → Running σ ω α
  | .ok a => return a
  | .error fault => throw (.fault fault)

/-- Hand an event to the reporter. -/
def tell (reporter : Reporter ω) (event : Event) : Running σ ω Unit := do
  let (e, out) ← get
  let (outcome, out) := reporter event out
  set (e, out)
  match outcome with
  | .ok () => return ()
  | .error error => throw (.write error)

/-- Report a generation with the text of the program in its best slot. -/
def tellGeneration (reporter : Reporter ω) (record : GenerationRecord) : Running σ ω Unit := do
  let formula ← answer ((← evolution).formula record.bestIndex)
  tell reporter (.generation record formula)

variable [WordSource σ]

/-- Make one generation. -/
def advance : Running σ ω (Option GenerationRecord) := do
  let (e, out) ← get
  let (record, e) ← answer e.advance
  set (e, out)
  return record

/-- Make and report generations, `budget` at most, until the run ends. -/
def finishGenerations (reporter : Reporter ω) : (budget : Nat) → Running σ ω Unit
  | 0 => return ()
  | budget + 1 => do
    match ← advance with
    | none => return ()
    | some record =>
      tellGeneration reporter record
      finishGenerations reporter budget

/-- Run to the end. One generation more than are left is asked for, so that the run notices its
end. -/
def toEnd (reporter : Reporter ω) : Running σ ω Result := do
  let e ← evolution
  tell reporter (.begin e.settings e.problem)
  if let some record := e.history.back? then tellGeneration reporter record
  finishGenerations reporter (e.settings.generations - e.generation + 1)
  let result ← answer (← evolution).result
  tell reporter result.event
  return result

end Running

/-- Run to the end and report. Gives the result or what went wrong, with the states of the run and
of the reporter then. -/
def Evolution.run {σ ω : Type} [WordSource σ] (e : Evolution σ) (reporter : Reporter ω) (out : ω) :
    Except EvolutionError Result × Evolution σ × ω :=
  Id.run ((Running.toEnd reporter).run.run (e, out))

end SymbolicRegression
