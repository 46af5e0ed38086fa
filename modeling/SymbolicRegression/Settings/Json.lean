import SymbolicRegression.Json.Record
import SymbolicRegression.Json.Value
import SymbolicRegression.Settings.Basic

/-!
# Settings as JSON

## Main definitions

* `SymbolicRegression.Settings.toJson` — settings as a JSON object.
* `SymbolicRegression.Settings.ofJson` — the settings that a JSON text stands for.
-/

set_option autoImplicit false

namespace SymbolicRegression.Settings

open Json

/-- Settings as a JSON object, all fields in their order. -/
def toJson (s : Settings) : Value :=
  .object [
    ("seed", .count s.seed.toNat),
    ("max_len", .count s.maxLength),
    ("population_size", .count s.populationSize),
    ("depth", .count s.depth),
    ("generations", .count s.generations),
    ("crossover_probability", .number s.crossoverProbability),
    ("selection", .object [("tournament_size", .count s.tournamentSize)]),
    ("mutation", .object [("per_node_probability", .number s.mutationProbability)]),
    ("elitism", .bool s.elitism),
    ("solved_threshold", .number s.solvedThreshold),
    ("parallel_evaluation", .bool s.parallelEvaluation)]

/-- The record of the tournament size alone. -/
def tournamentFields : List (RecordField Nat) :=
  [.ofScan "tournament_size" count fun n _ => n]

/-- The record of the mutation probability alone. -/
def mutationFields : List (RecordField Float) :=
  [.ofScan "per_node_probability" real fun p _ => p]

/-- The fields of settings. -/
def fields : List (RecordField Settings) :=
  let default : Settings := {}
  [.ofScan "seed" count fun n s => { s with seed := UInt64.ofNat n },
   .ofScan "max_len" count fun n s => { s with maxLength := n },
   .ofScan "population_size" count fun n s => { s with populationSize := n },
   .ofScan "depth" count fun n s => { s with depth := n },
   .ofScan "generations" count fun n s => { s with generations := n },
   .ofScan "crossover_probability" real fun p s => { s with crossoverProbability := p },
   .ofScan "selection" (record tournamentFields default.tournamentSize)
    fun n s => { s with tournamentSize := n },
   .ofScan "mutation" (record mutationFields default.mutationProbability)
    fun p s => { s with mutationProbability := p },
   .ofScan "elitism" bool fun b s => { s with elitism := b },
   .ofScan "solved_threshold" real fun x s => { s with solvedThreshold := x },
   .ofScan "parallel_evaluation" bool fun b s => { s with parallelEvaluation := b }]

/-- The settings that a JSON text stands for. -/
def ofJson (text : String) : Except Json.Fault Settings := readWhole (record fields {}) text

end SymbolicRegression.Settings
