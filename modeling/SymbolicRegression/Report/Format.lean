import SymbolicRegression.Report.Event
import SymbolicRegression.Settings.Json

/-!
# Report formats

Events as text: for people to read, or as one JSON object on each line.

## Main definitions

* `SymbolicRegression.Event.text` — an event for people to read.
* `SymbolicRegression.Event.toJson` — an event as a JSON object.
* `SymbolicRegression.ReportFormat` — the formats.
* `SymbolicRegression.ReportFormat.reporter` — the reporter that writes a format into a sink.
-/

set_option autoImplicit false

namespace SymbolicRegression

/-- An event for people to read. -/
def Event.text : Event → String
  | .begin settings problem =>
    "-- TINY GP --\n" ++
    settings.banner ++ "\n" ++
    s!"NVAR={problem.varCount}\n" ++
    s!"NRAND={problem.constCount}\n" ++
    "MIN_RANDOM=" ++ Decimal.plain.render problem.minRandom ++ "\n" ++
    "MAX_RANDOM=" ++ Decimal.plain.render problem.maxRandom ++ "\n" ++
    s!"FITNESS_CASES={problem.cases.length}\n" ++
    "----------------------------------\n"
  | .generation record formula =>
    s!"Generation={record.generation}" ++
    " Avg Fitness=" ++ Decimal.plain.render record.meanFitness ++
    " Best Fitness=" ++ Decimal.plain.render record.bestFitness ++
    " Avg Size=" ++ Decimal.plain.render record.meanSize ++ "\n" ++
    "Best Individual: " ++ formula ++ "\n"
  | .finish .solved _ _ _ => "PROBLEM SOLVED\n"
  | .finish .exhausted _ _ _ => "PROBLEM *NOT* SOLVED\n"

/-- An event as a JSON object. -/
def Event.toJson : Event → Json.Value
  | .begin settings problem =>
    .object [
      ("event", .text "begin"),
      ("config", settings.toJson),
      ("var_count", .count problem.varCount),
      ("const_count", .count problem.constCount),
      ("min_random", .number problem.minRandom),
      ("max_random", .number problem.maxRandom),
      ("case_count", .count problem.cases.length)]
  | .generation record formula =>
    .object [
      ("event", .text "generation"),
      ("generation", .count record.generation),
      ("best_fitness", .number record.bestFitness),
      ("mean_fitness", .number record.meanFitness),
      ("worst_fitness", .number record.worstFitness),
      ("mean_size", .number record.meanSize),
      ("best_index", .count record.bestIndex),
      ("formula", .text formula)]
  | .finish outcome generations bestFitness formula =>
    .object [
      ("event", .text "finish"),
      ("outcome", .text outcome.name),
      ("generations", .count generations),
      ("best_fitness", .number bestFitness),
      ("formula", .text formula)]

/-- How a run is reported. -/
inductive ReportFormat where
  /-- For people to read. -/
  | text
  /-- One JSON object on each line. -/
  | json
  /-- Not at all. -/
  | silent
  deriving DecidableEq, Repr

namespace ReportFormat

/-- An event in a format. -/
def render (format : ReportFormat) (event : Event) : String :=
  match format with
  | .text => event.text
  | .json => event.toJson.render ++ "\n"
  | .silent => ""

/-- The reporter that writes a format into a sink. The silent one writes nothing. -/
def reporter (format : ReportFormat) : Reporter Sink := fun event sink =>
  match format with
  | .silent => (.ok (), sink)
  | _ => sink.write (format.render event)

end ReportFormat

end SymbolicRegression
