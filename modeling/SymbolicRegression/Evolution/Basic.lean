import SymbolicRegression.Breeding.Constants
import SymbolicRegression.Breeding.Crossover
import SymbolicRegression.Breeding.Mutation
import SymbolicRegression.Evolution.Record
import SymbolicRegression.Fitness.Population
import SymbolicRegression.Fitness.Scorer
import SymbolicRegression.Formula.Text
import SymbolicRegression.Report.Event

/-!
# Steady-state evolution

A run owns a population and a supply of random words. In each generation it takes as many steps as
there are programs: a step breeds one child, by crossover or by mutation, scores it, and puts it
in the place of the loser of a negative tournament. The slot of the best program is kept up to
date from step to step.

## Main definitions

* `SymbolicRegression.Evolution` — the state of a run.
* `SymbolicRegression.Evolution.start` — the first programs.
* `SymbolicRegression.Evolution.step` — one step.
* `SymbolicRegression.Evolution.advance` — one generation, unless the run has ended.
* `SymbolicRegression.Evolution.result` — the result so far.
-/

set_option autoImplicit false

namespace SymbolicRegression

/-- Why a run cannot start or go on. -/
inductive EvolutionError where
  /-- The parameters or the problem cannot be run. -/
  | settings (error : SettingsError)
  /-- A report cannot be written. -/
  | write (error : WriteError)
  /-- An operation of the run has no answer. -/
  | fault (cause : Fault)

/-- The wording of an error. -/
def EvolutionError.message : EvolutionError → String
  | .settings error => s!"invalid configuration: {error.message}"
  | .write error => s!"I/O error: {error.message}"
  | .fault cause => cause.message

/-- What a run has found. -/
structure Result where
  /-- Whether the best fitness has passed the threshold. -/
  outcome : Outcome
  /-- The number of generations made. -/
  generations : Nat
  /-- The fitness of the best program. -/
  bestFitness : Float
  /-- The best program. -/
  best : Program
  /-- The text of the best program. -/
  formula : String
  /-- The record of every generation. -/
  history : Array GenerationRecord

/-- The event that reports a result. -/
def Result.event (r : Result) : Event := .finish r.outcome r.generations r.bestFitness r.formula

/-- The state of a run. -/
structure Evolution (σ : Type) where
  /-- The parameters. -/
  settings : Settings
  /-- The cases and the terminals. -/
  problem : Problem
  /-- The constants of the run. -/
  bindings : Bindings
  /-- Scores the children. -/
  scorer : Scorer
  /-- The programs and their fitness. -/
  population : Population
  /-- The slot of the best program. -/
  best : Nat
  /-- The random words. -/
  supply : Supply σ
  /-- The number of generations made. -/
  generation : Nat
  /-- How far the run has come. -/
  phase : Phase
  /-- The record of every generation. -/
  history : Array GenerationRecord

namespace Evolution

variable {σ : Type}

/-- The record of the current generation. -/
def currentRecord (e : Evolution σ) : GenerationRecord :=
  let summary := e.population.summary
  { generation := e.generation
    bestFitness := summary.best
    meanFitness := summary.mean
    worstFitness := summary.worst
    meanSize := e.population.meanSize
    bestIndex := e.best }

/-- Note the current generation in the history. -/
def record (e : Evolution σ) : Evolution σ := { e with history := e.history.push e.currentRecord }

/-- The text of the program in a slot. -/
def formula (e : Evolution σ) (slot : Nat) : Except Fault String := do
  let p ← e.population.program slot
  return p.formula e.bindings.layout

/-- Whether the best fitness has passed the threshold. -/
def isSolved (e : Evolution σ) : Except Fault Bool := do
  let best ← e.population.fitnessOf e.best
  return decide (e.settings.solvedThreshold < best)

/-- The result so far. -/
def result (e : Evolution σ) : Except Fault Result := do
  return {
    outcome := if ← e.isSolved then .solved else .exhausted
    generations := e.generation
    bestFitness := ← e.population.fitnessOf e.best
    best := ← e.population.program e.best
    formula := ← e.formula e.best
    history := e.history }

/-- Put a child into a slot, and find the best slot again if it may have changed. With elitism a
worse child does not replace the best program. -/
def settle (e : Evolution σ) (slot : Nat) (child : Program) (fitness : Float) :
    Except Fault (Evolution σ) := do
  let bestFitness ← e.population.fitnessOf e.best
  if slot = e.best then
    if e.settings.elitism ∧ fitness < bestFitness then return e
    else
      let population ← e.population.replace slot child fitness
      let best := if fitness < bestFitness then population.bestIndex else e.best
      return { e with population, best }
  else
    let population ← e.population.replace slot child fitness
    let best := if bestFitness < fitness then slot else e.best
    return { e with population, best }

variable [WordSource σ]

/-- Breed a child from a population. -/
def breed (settings : Settings) (terminals : Nat) (population : Population) : Draw σ Program := do
  if ← Draw.coin settings.crossoverProbability then
    let parent1 ← tournament population.fitness settings.tournamentSize
    let parent2 ← tournament population.fitness settings.tournamentSize
    crossover (← population.program parent1) (← population.program parent2) settings.maxLength
  else
    let parent ← tournament population.fitness settings.tournamentSize
    mutate (← population.program parent) settings.mutationProbability terminals

/-- Breed one child, score it, and put it in the place of the loser of a negative tournament. -/
def step (e : Evolution σ) : Except Fault (Evolution σ) := do
  let (child, supply) ← (breed e.settings e.problem.terminalCount e.population).run e.supply
  let (fitness, scorer) ← e.scorer.score child
  let (slot, supply) ←
    (negativeTournament e.population.fitness e.settings.tournamentSize).run supply
  { e with scorer, supply }.settle slot child fitness

/-- Take a number of steps. -/
def steps : Nat → Evolution σ → Except Fault (Evolution σ)
  | 0, e => .ok e
  | n + 1, e => do steps n (← e.step)

/-- Make one generation and record it. A run that has passed the threshold or made all its
generations ends instead, and stays as it is from then on. -/
def advance (e : Evolution σ) : Except Fault (Option GenerationRecord × Evolution σ) := do
  if e.phase.isFinal then return (none, e)
  if ← e.isSolved then return (none, { e with phase := .solved })
  if e.settings.generations ≤ e.generation then return (none, { e with phase := .exhausted })
  let e ← steps e.settings.populationSize
    { e with phase := .running, generation := e.generation + 1 }
  return (some e.currentRecord, e.record)

/-- Draw the constants and the first programs, and score them. The generator is made only once the
constants have been drawn. -/
def populate (generator : Except Fault Generator) (settings : Settings) (problem : Problem)
    (supply : Supply σ) : Except Fault (Bindings × Array Program × Array Float × Supply σ) := do
  let (bindings, supply) ← (Bindings.sample problem).run supply
  let generator ← generator
  Storage.reserve Program.entryBytes settings.populationSize
  let (programs, supply) ← (Generator.generateMany settings.populationSize generator #[]).run supply
  let fitness ←
    scorePopulation programs.toList problem.cases bindings settings.parallelEvaluation
  return (bindings, programs, fitness, supply)

/-- Start a run with the first programs of a generator, if it can be made, and record them. -/
def startFrom (generator : Except Fault Generator) (settings : Settings) (problem : Problem)
    (supply : Supply σ) : Except EvolutionError (Evolution σ) := do
  let (bindings, programs, fitness, supply) ←
    (populate generator settings problem supply).mapError EvolutionError.fault
  match Population.ofParts? programs fitness with
  | none => throw (.settings .emptyPopulation)
  | some population =>
    let e : Evolution σ :=
      { settings, problem, bindings, population, supply
        scorer := Scorer.fresh problem.cases bindings
        best := population.bestIndex
        generation := 0
        phase := .initializing
        history := #[] }
    return e.record

/-- Start a run: check the parameters and the problem, make the first programs and record them. -/
def start (settings : Settings) (problem : Problem) (supply : Supply σ) :
    Except EvolutionError (Evolution σ) := do
  settings.check.mapError EvolutionError.settings
  let terminals ← problem.countTerminals.mapError EvolutionError.fault
  if terminals = 0 then throw (.settings .noTerminals)
  startFrom (Generator.ofLimits settings.maxLength terminals settings.depth) settings problem supply

end Evolution

end SymbolicRegression
