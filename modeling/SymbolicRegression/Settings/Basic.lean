import SymbolicRegression.Decimal.Text

/-!
# Settings

The parameters of a run, which of them can be run, and how they are shown.

## Main definitions

* `SymbolicRegression.Settings` — the parameters, with their defaults.
* `SymbolicRegression.Settings.check` — refuse parameters that cannot be run.
* `SymbolicRegression.Settings.banner` — the parameters for people to read.
-/

set_option autoImplicit false

namespace SymbolicRegression

/-- The parameters of a run. -/
structure Settings where
  /-- The seed of the random words. -/
  seed : UInt64 := 42
  /-- The greatest length of a program. -/
  maxLength : Nat := 10000
  /-- The number of programs. -/
  populationSize : Nat := 1000
  /-- The depth budget of the first programs. -/
  depth : Nat := 5
  /-- The number of generations after the first one. -/
  generations : Nat := 100
  /-- How often a child has two parents. -/
  crossoverProbability : Float := 0.9
  /-- The number of entrants of a tournament. -/
  tournamentSize : Nat := 2
  /-- How often an opcode is changed by mutation. -/
  mutationProbability : Float := 0.05
  /-- Never replace the best program by a worse one. -/
  elitism : Bool := false
  /-- A run is solved when the best fitness is greater than this. -/
  solvedThreshold : Float := -0.00001
  /-- Score the first programs side by side. -/
  parallelEvaluation : Bool := true
  deriving BEq

/-- The parameters that are probabilities. -/
inductive ProbabilityField where
  /-- How often a child has two parents. -/
  | crossover
  /-- How often an opcode is changed. -/
  | mutation
  deriving DecidableEq, Repr

/-- The name of a parameter. -/
def ProbabilityField.name : ProbabilityField → String
  | .crossover => "crossover_probability"
  | .mutation => "per_node_probability"

/-- Why parameters cannot be run. -/
inductive SettingsError where
  /-- There is no program. -/
  | emptyPopulation
  /-- Nobody enters a tournament. -/
  | zeroTournament
  /-- There is no depth budget. -/
  | zeroDepth
  /-- No program with an operator has that few opcodes. -/
  | smallBuffer (maxLength : Nat)
  /-- A probability outside `[0, 1]`. -/
  | probability (field : ProbabilityField) (value : Float)
  /-- A threshold that fitness cannot reach, or that is undefined. -/
  | threshold (value : Float)
  /-- The problem has no terminals. -/
  | noTerminals

/-- The wording of an error. -/
def SettingsError.message : SettingsError → String
  | .emptyPopulation => "population_size must be at least 1"
  | .zeroTournament => "tournament_size must be at least 1"
  | .zeroDepth => "depth must be at least 1"
  | .smallBuffer maxLength => s!"max_len {maxLength} cannot hold a program (minimum 3)"
  | .probability field value =>
    field.name ++ " must be within [0, 1], got " ++ Decimal.plain.render value
  | .threshold value =>
    "solved_threshold must not be positive, got " ++ Decimal.plain.render value
  | .noTerminals => "problem has no variables or constants"

namespace Settings

/-- Refuse a value outside `[0, 1]`. -/
def checkProbability (field : ProbabilityField) (value : Float) : Except SettingsError Unit :=
  if 0.0 ≤ value ∧ value ≤ 1.0 then .ok () else .error (.probability field value)

/-- Refuse parameters that cannot be run. -/
def check (s : Settings) : Except SettingsError Unit := do
  if s.populationSize = 0 then throw .emptyPopulation
  if s.tournamentSize = 0 then throw .zeroTournament
  if s.depth = 0 then throw .zeroDepth
  if s.maxLength < 3 then throw (.smallBuffer s.maxLength)
  checkProbability .crossover s.crossoverProbability
  checkProbability .mutation s.mutationProbability
  if s.solvedThreshold.isNaN ∨ 0.0 < s.solvedThreshold then throw (.threshold s.solvedThreshold)

/-- The parameters for people to read, one on each line. -/
def banner (s : Settings) : String :=
  s!"SEED={s.seed.toNat}\n" ++
  s!"MAX_LEN={s.maxLength}\n" ++
  s!"POPSIZE={s.populationSize}\n" ++
  s!"DEPTH={s.depth}\n" ++
  "CROSSOVER_PROB=" ++ Decimal.plain.render s.crossoverProbability ++ "\n" ++
  "PMUT_PER_NODE=" ++ Decimal.plain.render s.mutationProbability ++ "\n" ++
  s!"GENERATIONS={s.generations}\n" ++
  s!"TSIZE={s.tournamentSize}\n" ++
  "ELITISM=" ++ (if s.elitism then "true" else "false")

end Settings

end SymbolicRegression
