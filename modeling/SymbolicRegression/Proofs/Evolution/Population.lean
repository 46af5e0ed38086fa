import SymbolicRegression.Proofs.Evolution.Reachable
import SymbolicRegression.Proofs.Evolution.Start

set_option autoImplicit false
set_option relaxedAutoImplicit false

/-!
# The population of a reachable run

In every reachable state of a run on a problem that has been read, between two calls as well as
between the steps of a generation, the population has the size asked for, its programs are formulas
within the limits, every slot has the fitness that a new scorer finds for its program, and no slot
has a greater fitness than the best one.

## Main results

* `SymbolicRegression.Evolution.Reachable.sound` — reachable runs are sound.
* `SymbolicRegression.Evolution.Reachable.programs_wellFormed` — the programs of a reachable run.
* `SymbolicRegression.Evolution.Reachable.fitness_aligned` — their fitness.
* `SymbolicRegression.Evolution.Reachable.best_greatest` — the best slot.
-/

namespace SymbolicRegression.Evolution

variable {σ : Type} [WordSource σ] {settings : Settings} {problem : Problem} {supply : Supply σ}
  {e : Evolution σ}

/-- **Reachable runs are sound**, with accepted parameters. -/
theorem Reachable.sound {text : String} (hread : Problem.read text = .ok problem)
    (h : Reachable settings problem supply e) :
    Accepted settings problem ∧ e.Sound settings problem := by
  have hrun := Problem.runnable_of_read hread
  refine h.invariant (P := fun e => Accepted settings problem ∧ e.Sound settings problem)
    (fun e hstart => ⟨accepted_of_start hrun hstart, sound_of_start hrun hstart⟩)
    (fun e e' ⟨haccepted, he⟩ hstep => ⟨haccepted, (he.step haccepted).of_eq_ok hstep⟩)
    (fun e phase generation history ⟨haccepted, he⟩ =>
      ⟨haccepted, he.frame phase generation history⟩)

/-! ## Programs -/

/-- **The programs of a reachable run are well formed.** There are as many programs as asked for,
and as many fitness values. Every program is exactly one formula, no longer than allowed, and each
of its terminals has a slot in every table that it is evaluated with, whether the constants of the
run or a case bound by the scorer. The same holds of a child before it is settled, and the only way
in which a step can fail is a lack of words. -/
theorem Reachable.programs_wellFormed {text : String} (hread : Problem.read text = .ok problem)
    (h : Reachable settings problem supply e) :
    e.population.programs.size = settings.populationSize ∧
      e.population.fitness.size = settings.populationSize ∧
      (∀ p ∈ e.population.programs, subtreeEnd p.code 0 = some p.code.length ∧
        p.code.length ≤ settings.maxLength ∧
        ∀ op ∈ p.code, ∀ slot, Node.ofOpcode? op = some (.terminal slot) →
          slot < problem.terminalCount) ∧
      e.bindings.values.size = problem.terminalCount ∧
      (∀ c ∈ problem.cases, ∃ b, e.scorer.bindings.bind c.inputs = .ok b ∧
        b.values.size = problem.terminalCount) ∧
      (∀ child supply', (breed settings problem.terminalCount e.population).run e.supply =
        .ok (child, supply') → child.Fits settings.maxLength problem.terminalCount) ∧
      ∀ fault, e.step = .error fault → fault = .supplyExhausted := by
  obtain ⟨haccepted, hsound⟩ := h.sound hread
  refine ⟨hsound.size_programs, e.population.size_fitness.trans hsound.size_programs, ?_,
    hsound.size_values, ?_, ?_, ?_⟩
  · intro p hp
    obtain ⟨i, hi, rfl⟩ := Array.mem_iff_getElem.mp hp
    obtain ⟨hcomplete, hlength, hslots⟩ := hsound.fits i hi
    refine ⟨hcomplete, hlength, ?_⟩
    intro op hop slot hslot
    obtain ⟨hterminal, rfl⟩ := Node.ofOpcode?_eq_terminal_iff.mp hslot
    exact hslots op hop hterminal
  · intro c hc
    exact hsound.bind_inputs haccepted.runnable hc
  · intro child supply' hchild
    have hbreed := hsound.breed haccepted e.supply
    rw [hsound.settings_eq, hsound.problem_eq] at hbreed
    exact hbreed.of_eq_ok hchild
  · intro fault hfault
    exact (hsound.step haccepted).of_eq_error hfault

/-- The programs of the small run are well formed. -/
theorem programs_wellFormed_sample : ∃ problem e, Problem.read Sample.text = .ok problem ∧
    Reachable Sample.settings problem Sample.supply e ∧
    e.population.programs.size = 2 ∧
    ∀ p ∈ e.population.programs, subtreeEnd p.code 0 = some p.code.length := by
  obtain ⟨problem, e, hread, h⟩ := Sample.reachable
  obtain ⟨hsize, -, hprograms, -⟩ := Reachable.programs_wellFormed hread h
  exact ⟨problem, e, hread, h, hsize, fun p hp => (hprograms p hp).1⟩

/-! ## Fitness -/

/-- **The fitness of a reachable run is aligned.** Every slot has, to the bit, the fitness that a
new scorer with the constants of the run finds for the program in it, and this fitness is defined.
The scorer of the run, whatever it has scored, still looks at the cases of the problem and holds
the constants of the run. -/
theorem Reachable.fitness_aligned {text : String} (hread : Problem.read text = .ok problem)
    (h : Reachable settings problem supply e) :
    (∀ slot, slot < e.population.size → ∃ p x s,
      e.population.program slot = .ok p ∧ e.population.fitnessOf slot = .ok x ∧
        (Scorer.fresh problem.cases e.bindings).score p = .ok (x, s) ∧ x.isNaN = false) ∧
      e.scorer.cases = problem.cases ∧ e.scorer.bindings.varCount = e.bindings.varCount ∧
      e.scorer.bindings.constants = e.bindings.constants := by
  obtain ⟨haccepted, hsound⟩ := h.sound hread
  refine ⟨?_, hsound.scorer_cases, congrArg Layout.varCount hsound.scorer_layout,
    hsound.scorer_constants⟩
  intro slot hslot
  have hslot' : slot < e.population.fitness.size := e.population.size_fitness ▸ hslot
  obtain ⟨s, hscore, -, -⟩ := (Scorer.fresh problem.cases e.bindings).score_eq
    e.population.programs[slot] (hsound.varCount_eq ▸ haccepted.runnable.size_inputs)
  refine ⟨_, _, s, Population.program_eq hslot, Population.fitnessOf_eq hslot', ?_,
    hsound.ranked slot hslot'⟩
  rw [hscore, hsound.aligned slot hslot hslot']
  rfl

/-- The fitness of the small run is aligned. -/
theorem fitness_aligned_sample : ∃ problem e, Problem.read Sample.text = .ok problem ∧
    Reachable Sample.settings problem Sample.supply e ∧
    ∀ slot, slot < e.population.size → ∃ p x s,
      e.population.program slot = .ok p ∧ e.population.fitnessOf slot = .ok x ∧
        (Scorer.fresh problem.cases e.bindings).score p = .ok (x, s) ∧ x.isNaN = false := by
  obtain ⟨problem, e, hread, h⟩ := Sample.reachable
  exact ⟨problem, e, hread, h, (Reachable.fitness_aligned hread h).1⟩

/-! ## The best slot -/

omit [WordSource σ]

/-- The test for the end of a run looks at the fitness of the best slot. -/
theorem isSolved_eq {x : Float} (hx : e.population.fitnessOf e.best = .ok x) :
    e.isSolved = .ok (decide (e.settings.solvedThreshold < x)) := by
  rw [isSolved, hx]
  rfl

/-- The result of a run is about the program and the fitness of the best slot. -/
theorem result_eq {p : Program} {x : Float} (hp : e.population.program e.best = .ok p)
    (hx : e.population.fitnessOf e.best = .ok x) :
    e.result = .ok
      { outcome := if e.settings.solvedThreshold < x then .solved else .exhausted
        generations := e.generation
        bestFitness := x
        best := p
        formula := p.formula e.bindings.layout
        history := e.history } := by
  have hformula : e.formula e.best = .ok (p.formula e.bindings.layout) := by
    rw [formula, hp]
    rfl
  rw [result, isSolved_eq hx, hx, hp, hformula]
  simp only [bind, Except.bind, pure, Except.pure, decide_eq_true_eq]

variable [WordSource σ]

/-- **The best slot of a reachable run is a greatest one.** It is a slot, no slot has a greater
fitness, and the test for the end of the run, the fitness in its result and the formula in its
result all concern it. -/
theorem Reachable.best_greatest {text : String} (hread : Problem.read text = .ok problem)
    (h : Reachable settings problem supply e) :
    e.best < e.population.size ∧ ∃ p x,
      e.population.program e.best = .ok p ∧ e.population.fitnessOf e.best = .ok x ∧
        (∀ slot y, e.population.fitnessOf slot = .ok y → y ≤ x) ∧
        e.isSolved = .ok (decide (settings.solvedThreshold < x)) ∧
        ∃ r, e.result = .ok r ∧ r.bestFitness = x ∧ r.best = p ∧
          r.formula = p.formula e.bindings.layout ∧
          (r.outcome = .solved ↔ settings.solvedThreshold < x) := by
  obtain ⟨-, hsound⟩ := h.sound hread
  obtain ⟨hlt, hle⟩ := hsound.isBest
  have hlt' : e.best < e.population.size := lt_of_lt_of_eq hlt e.population.size_fitness
  have hp := Population.program_eq hlt'
  have hx := Population.fitnessOf_eq hlt
  refine ⟨hlt', _, _, hp, hx, ?_, ?_, _, result_eq hp hx, rfl, rfl, rfl, ?_⟩
  · intro slot y hy
    unfold Population.fitnessOf at hy
    split at hy
    · rename_i z hz
      obtain ⟨hslot, rfl⟩ := Array.getElem?_eq_some_iff.mp hz
      obtain rfl := Except.ok.inj hy
      exact hle slot hslot
    · cases hy
  · rw [isSolved_eq hx, hsound.settings_eq]
  · rw [hsound.settings_eq]
    split <;> simp [*]

/-- The best slot of the small run is a greatest one. -/
theorem best_greatest_sample : ∃ problem e, Problem.read Sample.text = .ok problem ∧
    Reachable Sample.settings problem Sample.supply e ∧ ∃ x,
      e.population.fitnessOf e.best = .ok x ∧
        ∀ slot y, e.population.fitnessOf slot = .ok y → y ≤ x := by
  obtain ⟨problem, e, hread, h⟩ := Sample.reachable
  obtain ⟨-, -, x, -, hx, hle, -⟩ := Reachable.best_greatest hread h
  exact ⟨problem, e, hread, h, x, hx, hle⟩

end SymbolicRegression.Evolution
