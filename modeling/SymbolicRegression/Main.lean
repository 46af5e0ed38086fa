import SymbolicRegression.Command.Run

/-!
# The program

Reads the files that a command needs, runs the command, and prints and writes what it has to show.
-/

set_option autoImplicit false

open SymbolicRegression

/-- The reason for which the system refuses a file. The codes may have either sign. A file of the
wrong type is a directory unless the code says that there should be one. -/
def fileError : IO.Error → FileError
  | .noFileOrDirectory .. => .notFound
  | .inappropriateType _ code _ =>
    if code = 20 ∨ code = 0 - 20 then .notDirectory else .isDirectory
  | .invalidArgument file code details =>
    if code = 36 ∨ code = 0 - 36 then .nameTooLong
    else .refused (toString (IO.Error.invalidArgument file code details))
  | error => .refused (toString error)

/-- Do something with the file that a path leads to. -/
def withFile {α : Type} (path : String) (action : IO (Except FileError α)) :
    IO (Except FileError α) := do
  match Path.ofText path with
  | .error error => return .error error
  | .ok _ => try action catch error => return .error (fileError error)

/-- The text of a file. -/
def readText (path : String) : IO (Except FileError String) :=
  withFile path do
    match String.fromUTF8? (← IO.FS.readBinFile path) with
    | some text => return .ok text
    | none => return .error .notText

/-- Write the file that a command leaves behind. -/
def writeSolution (c : Completion) : IO Completion := do
  match c.solution with
  | none => return c
  | some (path, text) =>
    match ← withFile path do return .ok (← IO.FS.writeFile path text) with
    | .ok () => return c
    | .error error => return { c with error := some (.solution path error) }

/-- Run the command that the arguments stand for. -/
def runCommand (arguments : List String) : IO Completion := do
  match Command.ofArguments? arguments with
  | none => return { error := some .usage }
  | some command =>
    let files ← command.inputFiles.mapM fun path => do return (path, ← readText path)
    let c := command.run fun path => (files.lookup path).getD (.error .notFound)
    IO.print c.output
    writeSolution c

/-- What the system reports of a program that has been aborted, in the place of an exit code. -/
def abortStatus : Nat := 134

/-- The program. -/
def main (arguments : List String) : IO UInt32 := do
  let c ← runCommand arguments
  match c.error with
  | none => pure ()
  | some .usage => IO.eprint CommandError.usage.message
  | some (.evolution (.fault cause)) => IO.eprintln cause.message
  | some error => IO.eprintln s!"Error: {error.message}"
  return UInt32.ofNat (c.exitCode.getD abortStatus)
