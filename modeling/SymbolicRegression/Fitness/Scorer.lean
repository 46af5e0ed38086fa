import SymbolicRegression.CaseFile.Basic
import SymbolicRegression.Program.Evaluation

/-!
# Scoring

The fitness of a program is the negated sum of its absolute errors over the cases, so zero is
perfect and more is better. A program whose error is not finite has fitness minus infinity.

A scorer keeps its table of bound values and its machine from one program to the next; only the
variable slots of the table change.

## Main definitions

* `SymbolicRegression.Scorer` — a scorer for a list of cases.
* `SymbolicRegression.Scorer.score` — the fitness of a program.
* `SymbolicRegression.scorePopulation` — the fitness of many programs.
-/

set_option autoImplicit false

namespace SymbolicRegression

/-- What is needed to score programs one after another. -/
structure Scorer where
  /-- The cases. -/
  cases : List FitnessCase
  /-- The constants of the run, and the inputs of the case looked at last. -/
  bindings : Bindings
  /-- The machine that evaluates. -/
  machine : Machine

namespace Scorer

/-- A scorer that has scored nothing yet. -/
def fresh (cases : List FitnessCase) (bindings : Bindings) : Scorer :=
  ⟨cases, bindings, Machine.empty⟩

/-- Add the error of a program on one case to the errors before it. -/
def addError (p : Program) (state : Float × Scorer) (c : FitnessCase) :
    Except Fault (Float × Scorer) := do
  let (error, s) := state
  let bindings ← s.bindings.bind c.inputs
  let (output, machine) := s.machine.evaluate p bindings
  return (error + (output - c.target).abs, { s with bindings, machine })

/-- The fitness that a sum of errors stands for. -/
def fitnessOfError (error : Float) : Float := if error.isFinite then -error else -(1.0 / 0.0)

/-- The fitness of a program, and the scorer afterwards. -/
def score (s : Scorer) (p : Program) : Except Fault (Float × Scorer) := do
  let (error, s) ← s.cases.foldlM (addError p) (0.0, s)
  return (fitnessOfError error, s)

/-- The fitness of each program, one after another, after those scored before. -/
def scoreEach (s : Scorer) : List Program → Array Float → Except Fault (Array Float)
  | [], done => .ok done
  | p :: rest, done => do
    let (fitness, s) ← s.score p
    s.scoreEach rest (done.push fitness)

end Scorer

/-- The fitness of each program of a population. Side by side, every program has a scorer of its
own; otherwise one scorer takes them in turn. -/
def scorePopulation (programs : List Program) (cases : List FitnessCase) (bindings : Bindings)
    (sideBySide : Bool) : Except Fault (Array Float) :=
  if sideBySide then do
    let fitness ← programs.mapM fun p => do return (← (Scorer.fresh cases bindings).score p).1
    return fitness.toArray
  else (Scorer.fresh cases bindings).scoreEach programs #[]

end SymbolicRegression
