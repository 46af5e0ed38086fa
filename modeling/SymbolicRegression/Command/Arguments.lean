import SymbolicRegression.Decimal.Reader
import SymbolicRegression.Report.Format
import SymbolicRegression.Text.Blank

/-!
# Command lines

The commands and their arguments. Options may stand anywhere after the command. A long option is
followed by its value, or joined to it by an equals sign; a short option may also be followed by
its value at once. What follows a double dash is not an option.

## Main definitions

* `SymbolicRegression.Command` — what is asked for.
* `SymbolicRegression.Command.ofArguments?` — the command that arguments stand for.
-/

set_option autoImplicit false

namespace SymbolicRegression

/-- The options of the command that evolves a formula. -/
inductive EvolveOption where
  /-- The seed of the random words. -/
  | seed
  /-- The number of generations. -/
  | generations
  /-- The number of programs. -/
  | population
  /-- A file with settings. -/
  | config
  /-- How the run is reported. -/
  | format
  /-- A file for the best formula. -/
  | solution
  /-- The number of threads. -/
  | threads
  deriving DecidableEq, Repr

namespace EvolveOption

/-- All options. -/
def all : List EvolveOption :=
  [seed, generations, population, config, format, solution, threads]

/-- The long name of an option. -/
def longName : EvolveOption → String
  | seed => "seed"
  | generations => "generations"
  | population => "population"
  | config => "config"
  | format => "format"
  | solution => "solution"
  | threads => "threads"

/-- The short name of an option, if it has one. -/
def shortName : EvolveOption → Option Char
  | seed => some 's'
  | generations => some 'g'
  | population => some 'p'
  | config => some 'c'
  | format => some 'f'
  | solution => none
  | threads => some 'j'

end EvolveOption

/-- The arguments of the command that evolves a formula. -/
structure EvolveArguments where
  /-- The case file. -/
  problem : Option String := none
  /-- The seed of the random words. -/
  seed : Option Nat := none
  /-- The number of generations. -/
  generations : Option Nat := none
  /-- The number of programs. -/
  population : Option Nat := none
  /-- A file with settings. -/
  config : Option String := none
  /-- Never replace the best program by a worse one. -/
  elitism : Bool := false
  /-- How the run is reported. -/
  format : Option ReportFormat := none
  /-- A file for the best formula. -/
  solution : Option String := none
  /-- Show progress. -/
  progress : Bool := false
  /-- The number of threads. -/
  threads : Option Nat := none
  deriving DecidableEq, Repr

/-- The case file, which has a default name. -/
def EvolveArguments.caseFile (a : EvolveArguments) : String := a.problem.getD "problem.dat"

/-- What is asked for. -/
inductive Command where
  /-- The name and version of the program. -/
  | version
  /-- How the program is used. -/
  | help
  /-- Check a case file. -/
  | validate (problem : String)
  /-- Evolve a formula for a case file. -/
  | evolve (arguments : EvolveArguments)
  deriving DecidableEq, Repr

namespace EvolveArguments

/-- A file name, which may not be empty. -/
def fileName? (value : String) : Option String := if value = "" then none else some value

/-- The report format of a name. -/
def format? (value : String) : Option ReportFormat :=
  if value = "text" then some .text else if value = "json" then some .json else none

/-- Fill a place that has not been filled before. -/
def fill {α : Type} (place value : Option α) : Option (Option α) :=
  match place, value with
  | none, some a => some (some a)
  | _, _ => none

/-- Give an option its value. There is nothing if the option has a value already or this is not
one for it. -/
def setOption? (a : EvolveArguments) (option : EvolveOption) (value : String) :
    Option EvolveArguments :=
  let n := Decimal.readCount value.toList
  match option with
  | .seed => do return { a with seed := ← fill a.seed n }
  | .generations => do return { a with generations := ← fill a.generations n }
  | .population => do return { a with population := ← fill a.population n }
  | .config => do return { a with config := ← fill a.config (fileName? value) }
  | .format => do return { a with format := ← fill a.format (format? value) }
  | .solution => do return { a with solution := ← fill a.solution (fileName? value) }
  | .threads => do return { a with threads := ← fill a.threads n }

/-- Set a flag that is not set yet. -/
def setFlag? (a : EvolveArguments) (name : String) : Option EvolveArguments :=
  if name = "elitism" ∧ !a.elitism then some { a with elitism := true }
  else if name = "progress" ∧ !a.progress then some { a with progress := true }
  else none

/-- Take the name of the case file. -/
def setProblem? (a : EvolveArguments) (value : String) : Option EvolveArguments := do
  return { a with problem := ← fill a.problem (fileName? value) }

end EvolveArguments

/-- An argument by its form. -/
inductive Argument where
  /-- The double dash after which there are no options. -/
  | endOfOptions
  /-- A long name, and the value joined to it. -/
  | long (name : String) (value : Option String)
  /-- A short name, and what is joined to it. -/
  | short (name : Char) (joined : String)
  /-- Anything else. -/
  | plain (value : String)
  deriving DecidableEq, Repr

/-- The form of an argument. A dash alone is a plain value. -/
def Argument.ofString (argument : String) : Argument :=
  match argument.toList with
  | ['-', '-'] => .endOfOptions
  | '-' :: '-' :: rest =>
    let name := rest.takeWhile (· ≠ '=')
    match rest.dropWhile (· ≠ '=') with
    | [] => .long (String.ofList name) none
    | _ :: value => .long (String.ofList name) (some (String.ofList value))
  | '-' :: name :: joined => .short name (String.ofList joined)
  | _ => .plain argument

/-- The value joined to a short option, without the equals sign that may stand before it. -/
def Argument.joinedValue (joined : String) : Option String :=
  match joined.toList with
  | [] => none
  | '=' :: rest => some (String.ofList rest)
  | value => some (String.ofList value)

namespace Command

/-- The files that a command reads. -/
def inputFiles : Command → List String
  | version | help => []
  | validate problem => [problem]
  | evolve arguments => arguments.config.toList ++ [arguments.caseFile]

/-- The option that an argument names, and the value joined to it. -/
def option? : Argument → Option (EvolveOption × Option String)
  | .long name value => do return (← EvolveOption.all.find? (·.longName == name), value)
  | .short name joined => do
    let option ← EvolveOption.all.find? (·.shortName == some name)
    return (option, Argument.joinedValue joined)
  | _ => none

/-- Whether an argument asks for help. -/
def asksHelp : Argument → Bool
  | .long "help" none => true
  | .short 'h' _ => true
  | _ => false

/-- The arguments of the command that evolves a formula. A value that stands alone may not look
like an option. -/
def evolveArguments? : List String → EvolveArguments → Option Command
  | [], a => some (.evolve a)
  | argument :: rest, a =>
    let form := Argument.ofString argument
    match option? form with
    | some (option, some value) => do evolveArguments? rest (← a.setOption? option value)
    | some (option, none) =>
      match rest with
      | [] => none
      | value :: rest =>
        if Argument.ofString value = .plain value then do
          evolveArguments? rest (← a.setOption? option value)
        else none
    | none =>
      if asksHelp form then some .help
      else match form, rest with
        | .plain value, _ => do evolveArguments? rest (← a.setProblem? value)
        | .long name none, _ => do evolveArguments? rest (← a.setFlag? name)
        | .endOfOptions, [] => some (.evolve a)
        | .endOfOptions, [value] => do return .evolve (← a.setProblem? value)
        | _, _ => none

/-- The arguments of the command that checks a case file: one name. -/
def validateArguments? : List String → Option String → Option Command
  | [], problem => do return .validate (← problem)
  | argument :: rest, problem =>
    let form := Argument.ofString argument
    match form with
    | .plain value => do
      validateArguments? rest (← EvolveArguments.fill problem (EvolveArguments.fileName? value))
    | .endOfOptions =>
      match rest, problem with
      | [], some value => some (.validate value)
      | [value], none => do return .validate (← EvolveArguments.fileName? value)
      | _, _ => none
    | _ => if asksHelp form then some .help else none

/-- The first words of the commands. -/
def words : List String := ["evolve", "validate", "help"]

/-- What help is asked for: none in particular, or that for one command. Nothing else may follow,
an option no more than a file. -/
def helpArguments? : List String → Option Command
  | [] => some .help
  | [topic] => if topic ∈ words then some .help else none
  | _ => none

/-- The command that arguments stand for. -/
def ofArguments? : List String → Option Command
  | [] => none
  | argument :: rest =>
    let form := Argument.ofString argument
    if asksHelp form then some .help
    else match form with
      | .plain "evolve" => evolveArguments? rest {}
      | .plain "validate" => validateArguments? rest none
      | .plain "help" => helpArguments? rest
      | .long "version" none => some .version
      | .short 'V' _ => some .version
      | _ => none

end Command

end SymbolicRegression
