import SymbolicRegression.CaseFile.Reader
import SymbolicRegression.Command.Arguments
import SymbolicRegression.Evolution.Run
import SymbolicRegression.Fitness.Summary
import SymbolicRegression.Random.Xoshiro

/-!
# Commands

What the commands do: they read files through a function that gives the text of a file, write their
reports into a sink, and say what is to be printed and written.

## Main definitions

* `SymbolicRegression.CommandError` — why a command fails.
* `SymbolicRegression.Completion` — what a command has to show.
* `SymbolicRegression.Command.run` — run a command.
* `SymbolicRegression.Command.runIn` — run a command in a directory.
-/

set_option autoImplicit false

namespace SymbolicRegression

/-- Why a command fails. -/
inductive CommandError where
  /-- The arguments stand for no command. -/
  | usage
  /-- The settings file cannot be read. -/
  | unreadableConfig (path : String) (error : FileError)
  /-- The settings file holds no settings. -/
  | invalidConfig (path : String) (fault : Json.Fault)
  /-- The case file describes no problem. -/
  | problem (error : ProblemError)
  /-- The run failed. -/
  | evolution (error : EvolutionError)
  /-- The best formula cannot be written. -/
  | solution (path : String) (error : FileError)

/-- How the program is used. -/
def usageText : String :=
  "Usage: tinygp evolve [FILE] [--seed N] [--generations N] [--population N] [--config FILE]\n" ++
  "         [--elitism] [--format text|json] [--solution FILE] [--progress] [--threads N]\n" ++
  "       tinygp validate FILE\n"

/-- The wording of an error. -/
def CommandError.message : CommandError → String
  | .usage => usageText
  | .unreadableConfig path error => s!"Failed to read config {path}: {error.message}"
  | .invalidConfig path fault => s!"Invalid config {path}: {fault.message}"
  | .problem error => error.message
  | .evolution error => error.message
  | .solution path error => s!"Failed to write solution to {path}: {error.message}"

/-- What a command has to show. -/
structure Completion where
  /-- The text to print. -/
  output : String := ""
  /-- What went wrong, if anything did. -/
  error : Option CommandError := none
  /-- Whether a command without an error did all that it was asked for. -/
  succeeded : Bool := true
  /-- A file to write, with its text. -/
  solution : Option (String × String) := none

/-- The exit code: zero for success, one for a run that ends unsolved, two for an error. A fault is
no error: it aborts the program where it stands, which then has no exit code. -/
def Completion.exitCode (c : Completion) : Option Nat :=
  match c.error with
  | some (.evolution (.fault _)) => none
  | some _ => some 2
  | none => some (if c.succeeded then 0 else 1)

namespace Command

/-- The settings of a run: those of the settings file, or the defaults, with what the arguments
say put in their place. -/
def settings (read : String → Except FileError String) (a : EvolveArguments) :
    Except CommandError Settings := do
  let s : Settings ← match a.config with
    | none => pure {}
    | some path => do
      let text ← (read path).mapError (CommandError.unreadableConfig path)
      (Settings.ofJson text).mapError (CommandError.invalidConfig path)
  return { s with
    seed := (a.seed.map UInt64.ofNat).getD s.seed
    generations := a.generations.getD s.generations
    populationSize := a.population.getD s.populationSize
    elitism := a.elitism || s.elitism }

/-- Start the run that the arguments ask for. -/
def startEvolve (read : String → Except FileError String) (a : EvolveArguments) :
    Except CommandError (Evolution Xoshiro) := do
  let settings ← settings read a
  let problem ← (Problem.load read a.caseFile).mapError CommandError.problem
  let supply := Supply.ofSource (Xoshiro.ofSeed settings.seed)
  (Evolution.start settings problem supply).mapError CommandError.evolution

/-- Evolve a formula and write the reports into a sink. -/
def runEvolve (read : String → Except FileError String) (a : EvolveArguments) (stdout : Sink) :
    Completion :=
  match startEvolve read a with
  | .error error => { output := stdout.text, error := some error }
  | .ok e =>
    let (answer, _, sink) := e.run (a.format.getD .text).reporter stdout
    match answer with
    | .error error => { output := sink.text, error := some (.evolution error) }
    | .ok result =>
      { output := sink.text
        succeeded := result.outcome == .solved
        solution := a.solution.map fun path => (path, result.formula ++ "\n") }

/-- The summary of a problem. -/
def problemSummary (p : Problem) : String :=
  let targets := p.cases.map FitnessCase.target
  let low := targets.foldl lesser (1.0 / 0.0)
  let high := targets.foldl greater (-(1.0 / 0.0))
  "\nSummary:\n" ++
  s!"  Variables:      {p.varCount}\n" ++
  s!"  Constants:      {p.constCount}\n" ++
  "  Constant range: [" ++ Decimal.plain.render p.minRandom ++ ", " ++
    Decimal.plain.render p.maxRandom ++ ")\n" ++
  s!"  Fitness cases:  {p.cases.length}\n" ++
  "  Target range:   [" ++ Decimal.plain.render low ++ ", " ++ Decimal.plain.render high ++ "]\n" ++
  "\nValidation successful!\n"

/-- Check a case file. -/
def runValidate (read : String → Except FileError String) (path : String) : Completion :=
  let heading := s!"Validating: {path}\n"
  match Problem.load read path with
  | .ok p => { output := heading ++ problemSummary p }
  | .error error => { output := heading, error := some (.problem error) }

/-- Run a command. Its reports go into a sink, which has no limit unless one is given. -/
def run (read : String → Except FileError String) (command : Command) (stdout : Sink := {}) :
    Completion :=
  match command with
  | .version => { output := "tinygp 0.1.0\n" }
  | .help => { output := usageText }
  | .validate path => runValidate read path
  | .evolve arguments => runEvolve read arguments stdout

/-- Run the command that arguments stand for, with the files of a directory, and write what it
leaves behind into the directory. -/
def runIn (d : Directory) (arguments : List String) (stdout : Sink := {}) :
    Completion × Directory :=
  match ofArguments? arguments with
  | none => ({ error := some .usage }, d)
  | some command =>
    let c := command.run d.read stdout
    match c.solution with
    | none => (c, d)
    | some (path, text) =>
      match d.write path text with
      | .ok d => (c, d)
      | .error error => ({ c with error := some (.solution path error) }, d)

end Command

end SymbolicRegression
