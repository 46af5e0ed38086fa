import SymbolicRegression.Proofs.Breeding.ConstantRange
import SymbolicRegression.Proofs.Evolution.Population
import SymbolicRegression.Proofs.Formula.Reading

set_option autoImplicit false
set_option relaxedAutoImplicit false

/-!
# The formulas of a reachable run

Whoever has the case file and the text of a formula can find the fitness of its program again, to
the bit: the text is read as a term, the term is evaluated on the cases in their order, and the
absolute errors are added up. No constant of the run is lost in the text, since all of them are
finite.

## Main results

* `SymbolicRegression.Evolution.Reachable.isFinite_constants` — the constants of a reachable run.
* `SymbolicRegression.Evolution.Reachable.formula_reproduces_fitness` — its formulas.
-/

namespace SymbolicRegression.Evolution

variable {σ : Type} {settings : Settings} {problem : Problem} {e : Evolution σ}

/-- The constants of a sound run are finite. -/
theorem Sound.isFinite_constants (h : e.Sound settings problem) (hrun : problem.Runnable) :
    ∀ c ∈ e.bindings.constants, c.isFinite = true := by
  intro c hc
  obtain ⟨w, rfl⟩ := h.drawn c hc
  exact hrun.isFinite_constantOf w

/-- The text of the program in a slot of a sound run is read as a term of the same fitness. -/
theorem Sound.formula_reproduces (h : e.Sound settings problem) (hrun : problem.Runnable)
    {slot : Nat} (hslot : slot < e.population.size) : ∃ text t,
      e.formula slot = .ok text ∧ Term.read text.toList = some t ∧
        e.population.fitnessOf slot = .ok (t.fitnessOn problem.cases) := by
  have hslot' : slot < e.population.fitness.size := e.population.size_fitness ▸ hslot
  have hformula : e.formula slot =
      .ok (e.population.programs[slot].formula e.bindings.layout) := by
    rw [formula, Population.program_eq hslot]
    rfl
  have hcount : e.bindings.layout.varCount + e.bindings.layout.constants.size =
      problem.terminalCount := by
    rw [← e.bindings.size_values, h.size_values]
  have hvars : e.bindings.layout.varCount = problem.varCount := h.varCount_eq
  have hinputs : ∀ c ∈ problem.cases, c.inputs.size = e.bindings.layout.varCount := by
    rw [hvars]
    exact hrun.size_inputs
  obtain ⟨t, hread, hfitness⟩ := Program.exists_read_formula (h.isFinite_constants hrun) hinputs
    (hcount ▸ h.fits slot hslot)
  refine ⟨_, t, hformula, hread, ?_⟩
  rw [Population.fitnessOf_eq hslot', h.aligned slot hslot hslot', hfitness]
  rfl

variable [WordSource σ] {supply : Supply σ}

/-- **The formulas of a reachable run reproduce its fitness.** The text of the program in every
slot is read as a term of the grammar, and the fitness of this term on the cases that the case file
lists is, to the bit, the fitness of the slot. In particular the formula in the result reproduces
the fitness in the result. -/
theorem Reachable.formula_reproduces_fitness {text : String}
    (hread : Problem.read text = .ok problem) (h : Reachable settings problem supply e) :
    (∀ slot, slot < e.population.size → ∃ formula t,
      e.formula slot = .ok formula ∧ Term.read formula.toList = some t ∧
        e.population.fitnessOf slot = .ok (t.fitnessOn problem.cases)) ∧
      ∃ r t, e.result = .ok r ∧ Term.read r.formula.toList = some t ∧
        r.bestFitness = t.fitnessOn problem.cases := by
  obtain ⟨-, hsound⟩ := h.sound hread
  have hrun := Problem.runnable_of_read hread
  constructor
  · intro slot hslot
    exact hsound.formula_reproduces hrun hslot
  · obtain ⟨hlt, -⟩ := hsound.isBest
    have hlt' : e.best < e.population.size := lt_of_lt_of_eq hlt e.population.size_fitness
    have hp := Population.program_eq hlt'
    obtain ⟨formula, t, hformula, hterm, hfitness⟩ := hsound.formula_reproduces hrun hlt'
    rw [Evolution.formula, hp] at hformula
    obtain rfl := Except.ok.inj hformula
    exact ⟨_, t, result_eq hp hfitness, hterm, rfl⟩

/-- The formulas of the small run reproduce its fitness. -/
theorem formula_reproduces_fitness_sample : ∃ problem e, Problem.read Sample.text = .ok problem ∧
    Reachable Sample.settings problem Sample.supply e ∧
    ∀ slot, slot < e.population.size → ∃ formula t,
      e.formula slot = .ok formula ∧ Term.read formula.toList = some t ∧
        e.population.fitnessOf slot = .ok (t.fitnessOn problem.cases) := by
  obtain ⟨problem, e, hread, h⟩ := Sample.reachable
  exact ⟨problem, e, hread, h, (Reachable.formula_reproduces_fitness hread h).1⟩

end SymbolicRegression.Evolution
