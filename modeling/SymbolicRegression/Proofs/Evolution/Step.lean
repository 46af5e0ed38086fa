import SymbolicRegression.Evolution.Basic
import SymbolicRegression.Proofs.Breeding.Constants
import SymbolicRegression.Proofs.Breeding.Crossover
import SymbolicRegression.Proofs.Breeding.Mutation
import SymbolicRegression.Proofs.Breeding.Tournament
import SymbolicRegression.Proofs.CaseFile.Reading
import SymbolicRegression.Proofs.Fitness.Best
import SymbolicRegression.Proofs.Fitness.Scoring

set_option autoImplicit false
set_option relaxedAutoImplicit false

/-!
# What a step does

A step breeds a child, scores it and settles it in a slot. Settling has five outcomes: the best
program refuses a worse child under elitism; it is replaced by a worse child, and all slots are
looked through; it is replaced by a child that is not worse; another program is replaced by a child
better than the best; another program is replaced by any other child.

## Main definitions

* `SymbolicRegression.Population.put` — a population with another program in one slot.
* `SymbolicRegression.Evolution.Settled` — the outcomes of settling a child.
* `SymbolicRegression.Evolution.Sound` — what holds of a run between any two steps.

## Main results

* `SymbolicRegression.Evolution.settle_spec` — settling has one of these outcomes.
* `SymbolicRegression.Evolution.Sound.breed` — the programs of a population breed fitting children.
* `SymbolicRegression.Evolution.Sound.step_spec` — what a step breeds, scores, draws and settles.
* `SymbolicRegression.Evolution.Sound.step` — a step keeps a run sound and cannot go wrong.
-/

namespace SymbolicRegression

/-! ## Populations with one slot changed -/

namespace Population

/-- There is still a fitness for every program after a slot is changed. -/
lemma size_fitness_set (pop : Population) (slot : Nat) (p : Program) (fitness : Float) :
    (pop.fitness.setIfInBounds slot fitness).size = (pop.programs.setIfInBounds slot p).size := by
  rw [Array.size_setIfInBounds, Array.size_setIfInBounds, pop.size_fitness]

/-- There is still a program after a slot is changed. -/
lemma size_set_pos (pop : Population) (slot : Nat) (p : Program) :
    0 < (pop.programs.setIfInBounds slot p).size := by
  rw [Array.size_setIfInBounds]
  exact pop.size_pos

/-- The population with a program and its fitness in a slot. -/
def put (pop : Population) (slot : Nat) (p : Program) (fitness : Float) : Population where
  programs := pop.programs.setIfInBounds slot p
  fitness := pop.fitness.setIfInBounds slot fitness
  size_fitness := size_fitness_set pop slot p fitness
  size_pos := size_set_pos pop slot p

variable {pop : Population} {slot : Nat}

/-- A slot can be replaced. -/
theorem replace_eq (h : slot < pop.size) (p : Program) (fitness : Float) :
    pop.replace slot p fitness = .ok (pop.put slot p fitness) := by
  rw [replace, if_pos h]
  rfl

/-- Every slot has a program. -/
theorem program_eq (h : slot < pop.programs.size) : pop.program slot = .ok pop.programs[slot] := by
  rw [program, Array.getElem?_eq_getElem h]

/-- Every slot has a fitness. -/
theorem fitnessOf_eq (h : slot < pop.fitness.size) :
    pop.fitnessOf slot = .ok pop.fitness[slot] := by
  rw [fitnessOf, Array.getElem?_eq_getElem h]

/-- A slot has a fitness just if there is one in the array. -/
theorem fitnessOf_eq_ok_iff {x : Float} :
    pop.fitnessOf slot = .ok x ↔ ∃ h : slot < pop.fitness.size, pop.fitness[slot] = x := by
  unfold fitnessOf
  rw [← Array.getElem?_eq_some_iff]
  split
  · rename_i y hy
    rw [hy, Except.ok.injEq, Option.some.injEq]
  · rename_i hnone
    simp [hnone]

/-- A number is the fitness of a slot if it is in the array. -/
theorem exists_fitnessOf_iff {x : Float} :
    (∃ slot, pop.fitnessOf slot = .ok x) ↔ x ∈ pop.fitness := by
  simp only [fitnessOf_eq_ok_iff, Array.mem_iff_getElem]

/-- The programs after one slot is changed. -/
theorem program_put (hslot : slot < pop.size) (p : Program) (x : Float) (i : Nat) :
    (pop.put slot p x).program i = if slot = i then .ok p else pop.program i := by
  have hslot : slot < pop.programs.size := hslot
  by_cases h : slot = i
  · subst h
    simp [program, put, hslot]
  · rw [if_neg h, program, program, size, size]
    simp only [put, Array.getElem?_setIfInBounds_ne h, Array.size_setIfInBounds]

/-- The fitness of the slots after one of them is changed. -/
theorem fitnessOf_put (hslot : slot < pop.size) (p : Program) (x : Float) (i : Nat) :
    (pop.put slot p x).fitnessOf i = if slot = i then .ok x else pop.fitnessOf i := by
  have hslot : slot < pop.fitness.size := pop.size_fitness ▸ hslot
  by_cases h : slot = i
  · subst h
    simp [fitnessOf, put, hslot]
  · rw [if_neg h, fitnessOf, fitnessOf, size, size]
    simp only [put, Array.getElem?_setIfInBounds_ne h, Array.size_setIfInBounds]

end Population

namespace Evolution

variable {σ : Type}

/-! ## Settling a child -/

/-- The outcomes of settling a child: what becomes of the run. -/
inductive Settled (e : Evolution σ) (child : Program) (fitness : Float) :
    (slot : Nat) → Evolution σ → Prop
  /-- The best program refuses a worse child. -/
  | refused (hbest : e.best < e.population.fitness.size) (helitism : e.settings.elitism = true)
      (hworse : fitness < e.population.fitness[e.best]) : Settled e child fitness e.best e
  /-- The best program gives way to a worse child. -/
  | rescanned (hbest : e.best < e.population.fitness.size) (helitism : e.settings.elitism = false)
      (hworse : fitness < e.population.fitness[e.best]) :
      Settled e child fitness e.best
        { e with
          population := e.population.put e.best child fitness
          best := (e.population.put e.best child fitness).bestIndex }
  /-- The best program gives way to a child that is not worse. -/
  | kept (hbest : e.best < e.population.fitness.size)
      (hnotWorse : ¬ fitness < e.population.fitness[e.best]) :
      Settled e child fitness e.best
        { e with population := e.population.put e.best child fitness }
  /-- Another program gives way to a child better than the best. -/
  | improved {slot : Nat} (hbest : e.best < e.population.fitness.size)
      (hslot : slot < e.population.size) (hne : slot ≠ e.best)
      (hbetter : e.population.fitness[e.best] < fitness) :
      Settled e child fitness slot
        { e with population := e.population.put slot child fitness, best := slot }
  /-- Another program gives way to a child not better than the best. -/
  | unimproved {slot : Nat} (hbest : e.best < e.population.fitness.size)
      (hslot : slot < e.population.size) (hne : slot ≠ e.best)
      (hnotBetter : ¬ e.population.fitness[e.best] < fitness) :
      Settled e child fitness slot
        { e with population := e.population.put slot child fitness }

/-- **Settling a child has one of the five outcomes.** -/
theorem settle_spec {e : Evolution σ} {slot : Nat} (hbest : e.best < e.population.fitness.size)
    (hslot : slot < e.population.size) (child : Program) (fitness : Float) :
    ∃ e', e.settle slot child fitness = .ok e' ∧ Settled e child fitness slot e' := by
  simp only [settle, Population.fitnessOf_eq hbest, Population.replace_eq hslot]
  show ∃ e', (if slot = e.best then _ else _) = Except.ok e' ∧ _
  split
  · rename_i heq
    subst heq
    split
    · rename_i hrefuse
      exact ⟨e, rfl, .refused hbest hrefuse.1 hrefuse.2⟩
    · rename_i hadmit
      by_cases hworse : fitness < e.population.fitness[e.best]
      · refine ⟨_, rfl, ?_⟩
        rw [if_pos hworse]
        exact .rescanned hbest (by simpa using fun h => hadmit ⟨h, hworse⟩) hworse
      · refine ⟨_, rfl, ?_⟩
        rw [if_neg hworse]
        exact .kept hbest hworse
  · rename_i hne
    by_cases hbetter : e.population.fitness[e.best] < fitness
    · refine ⟨_, rfl, ?_⟩
      rw [if_pos hbetter]
      exact .improved hbest hslot hne hbetter
    · refine ⟨_, rfl, ?_⟩
      rw [if_neg hbetter]
      exact .unimproved hbest hslot hne hbetter

/-! ## Sound runs -/

/-- The parameters of a run are in range and its problem can be run. -/
structure Accepted (settings : Settings) (problem : Problem) : Prop where
  /-- Crossover has a probability. -/
  crossover : 0.0 ≤ settings.crossoverProbability ∧ settings.crossoverProbability ≤ 1.0
  /-- Mutation has a probability. -/
  mutation : 0.0 ≤ settings.mutationProbability ∧ settings.mutationProbability ≤ 1.0
  /-- The problem can be run. -/
  runnable : problem.Runnable

/-- What holds of a run between any two steps. -/
structure Sound (settings : Settings) (problem : Problem) (e : Evolution σ) : Prop where
  /-- The parameters stay. -/
  settings_eq : e.settings = settings
  /-- The problem stays. -/
  problem_eq : e.problem = problem
  /-- There is a slot for each variable. -/
  varCount_eq : e.bindings.varCount = problem.varCount
  /-- There is a slot for each terminal. -/
  size_values : e.bindings.values.size = problem.terminalCount
  /-- Every constant has been made from a random word. -/
  drawn : ∀ c ∈ e.bindings.constants, ∃ w, c = problem.constantOf w
  /-- The scorer looks at the cases of the problem. -/
  scorer_cases : e.scorer.cases = problem.cases
  /-- The scorer has the constants of the run. -/
  scorer_layout : e.scorer.bindings.layout = e.bindings.layout
  /-- There are as many programs as asked for. -/
  size_programs : e.population.programs.size = settings.populationSize
  /-- Every program is a formula of allowed length over the terminals. -/
  fits : ∀ (i : Nat) (h : i < e.population.programs.size),
    e.population.programs[i].Fits settings.maxLength problem.terminalCount
  /-- Every slot has the fitness of its program. -/
  aligned : ∀ (i : Nat) (h : i < e.population.programs.size) (h' : i < e.population.fitness.size),
    e.population.fitness[i] = e.population.programs[i].fitnessOn problem.cases e.bindings.constants
  /-- No slot has a greater fitness than the best one. -/
  isBest : IsBest e.population.fitness e.best

namespace Sound

variable {settings : Settings} {problem : Problem} {e : Evolution σ}

/-- The fitness of every slot is defined. -/
theorem ranked (h : e.Sound settings problem) : Ranked e.population.fitness := by
  intro i hi
  rw [h.aligned i (e.population.size_fitness ▸ hi) hi]
  exact Program.isNaN_fitnessOn _ _ _

/-- The best slot is a slot. -/
theorem best_lt (h : e.Sound settings problem) : e.best < e.population.fitness.size :=
  h.isBest.1

/-- The fitness in a slot is that of its program, which is complete. -/
theorem exists_program (h : e.Sound settings problem) {slot : Nat} {x : Float}
    (hx : e.population.fitnessOf slot = .ok x) : ∃ p, e.population.program slot = .ok p ∧
      p.IsComplete ∧ x = p.fitnessOn problem.cases e.bindings.constants := by
  obtain ⟨hslot, rfl⟩ := Population.fitnessOf_eq_ok_iff.mp hx
  have hslot' : slot < e.population.programs.size := e.population.size_fitness ▸ hslot
  obtain ⟨hcomplete, -, -⟩ := h.fits slot hslot'
  exact ⟨_, Population.program_eq hslot', hcomplete, h.aligned slot hslot' hslot⟩

/-- The scorer binds as many inputs as the cases have. -/
theorem size_inputs (h : e.Sound settings problem) (hrun : problem.Runnable) :
    ∀ c ∈ e.scorer.cases, c.inputs.size = e.scorer.bindings.varCount := by
  have hvarCount : e.scorer.bindings.varCount = e.bindings.varCount :=
    congrArg Layout.varCount h.scorer_layout
  rw [hvarCount, h.varCount_eq, h.scorer_cases]
  exact hrun.size_inputs

/-- The scorer has the constants of the run. -/
theorem scorer_constants (h : e.Sound settings problem) :
    e.scorer.bindings.constants = e.bindings.constants :=
  congrArg Layout.constants h.scorer_layout

/-- Binding the inputs of a case gives a table with a slot for every terminal. -/
theorem bind_inputs (h : e.Sound settings problem) (hrun : problem.Runnable)
    {c : FitnessCase} (hc : c ∈ problem.cases) :
    ∃ b, e.scorer.bindings.bind c.inputs = .ok b ∧ b.values.size = problem.terminalCount := by
  have hinputs := h.size_inputs hrun c (h.scorer_cases ▸ hc)
  obtain ⟨b, hbind, hvalues, -⟩ := Bindings.bind_eq hinputs
  refine ⟨b, hbind, ?_⟩
  have hsize := e.bindings.size_values
  rw [h.size_values] at hsize
  rw [hvalues, Array.size_append, hinputs, h.scorer_constants, hsize,
    congrArg Layout.varCount h.scorer_layout |>.symm]
  rfl

/-- A run of sound states takes no notice of its phase, its generation and its history. -/
theorem frame (h : e.Sound settings problem) (phase : Phase) (generation : Nat)
    (history : Array GenerationRecord) :
    { e with phase, generation, history : Evolution σ }.Sound settings problem :=
  ⟨h.settings_eq, h.problem_eq, h.varCount_eq, h.size_values, h.drawn, h.scorer_cases,
    h.scorer_layout, h.size_programs, h.fits, h.aligned, h.isBest⟩

/-- Scoring a child leaves a run sound. -/
theorem scored (h : e.Sound settings problem) {scorer : Scorer} (supply : Supply σ)
    (hcases : scorer.cases = e.scorer.cases)
    (hlayout : scorer.bindings.layout = e.scorer.bindings.layout) :
    { e with scorer, supply : Evolution σ }.Sound settings problem :=
  ⟨h.settings_eq, h.problem_eq, h.varCount_eq, h.size_values, h.drawn,
    hcases.trans h.scorer_cases, hlayout.trans h.scorer_layout, h.size_programs, h.fits, h.aligned,
    h.isBest⟩

/-- Putting a fitting child with its own fitness into a slot leaves a run sound, if the best slot
is found again. -/
theorem put (h : e.Sound settings problem) {child : Program} {slot best : Nat}
    (hfits : child.Fits settings.maxLength problem.terminalCount)
    (hbest : IsBest (e.population.fitness.setIfInBounds slot
      (child.fitnessOn problem.cases e.bindings.constants)) best) :
    { e with
      population := e.population.put slot child
        (child.fitnessOn problem.cases e.bindings.constants)
      best : Evolution σ }.Sound settings problem := by
  refine { h with size_programs := ?_, fits := ?_, aligned := ?_, isBest := hbest }
  · simpa [Population.put] using h.size_programs
  · intro i hi
    have hi' : i < e.population.programs.size := by simpa [Population.put] using hi
    simp only [Population.put, Array.getElem_setIfInBounds hi']
    split
    · exact hfits
    · exact h.fits i hi'
  · intro i hi hi'
    have hi₁ : i < e.population.programs.size := by simpa [Population.put] using hi
    have hi₂ : i < e.population.fitness.size := by simpa [Population.put] using hi'
    simp only [Population.put, Array.getElem_setIfInBounds hi₁, Array.getElem_setIfInBounds hi₂]
    split
    · rfl
    · exact h.aligned i hi₁ hi₂

/-- **Settling a fitting child with its own fitness leaves a run sound**, whatever the outcome. -/
theorem settled (h : e.Sound settings problem) {child : Program} {slot : Nat} {e' : Evolution σ}
    (hfits : child.Fits settings.maxLength problem.terminalCount)
    (hsettled : Settled e child (child.fitnessOn problem.cases e.bindings.constants) slot e') :
    e'.Sound settings problem := by
  have hchild := child.isNaN_fitnessOn problem.cases e.bindings.constants
  cases hsettled with
  | refused => exact h
  | rescanned hbest _ hworse =>
    refine h.put hfits (isBest_bestSlot (h.ranked.set hchild) ?_)
    simpa using Nat.zero_lt_of_lt hbest
  | kept hbest hnotWorse =>
    exact h.put hfits (h.isBest.set_self h.ranked hchild hbest hnotWorse)
  | improved hbest hslot hne hbetter =>
    exact h.put hfits
      (h.isBest.set_of_lt h.ranked hchild (e.population.size_fitness ▸ hslot) hbest hbetter)
  | unimproved hbest hslot hne hnotBetter =>
    exact h.put hfits (h.isBest.set_of_not_lt h.ranked hchild hne hbest hnotBetter)

variable [WordSource σ]

/-- The programs of a sound run breed fitting children. -/
theorem breed (h : e.Sound settings problem) (haccepted : Accepted settings problem) :
    Draw.Yields (Evolution.breed e.settings e.problem.terminalCount e.population : Draw σ Program)
      (Program.Fits settings.maxLength problem.terminalCount) := by
  have hparent : ∀ slot, slot < e.population.fitness.size →
      Answers (e.population.program slot)
        (Program.Fits settings.maxLength problem.terminalCount) := fun slot hslot => by
    have hslot' : slot < e.population.programs.size := e.population.size_fitness ▸ hslot
    rw [Population.program_eq hslot']
    exact h.fits slot hslot'
  have hsize : 0 < e.population.fitness.size := Nat.zero_lt_of_lt h.best_lt
  have hchoose : Draw.Yields
      (tournament e.population.fitness e.settings.tournamentSize : Draw σ Nat)
      (· < e.population.fitness.size) := yields_contest _ _ hsize _
  rw [Evolution.breed, h.settings_eq, h.problem_eq]
  rw [h.settings_eq] at hchoose
  refine (Draw.yields_coin haccepted.crossover).bind ?_
  intro crosses _
  split
  · refine hchoose.bind fun slot₁ hslot₁ => hchoose.bind fun slot₂ hslot₂ => ?_
    refine (Draw.Yields.lift (hparent slot₁ hslot₁)).bind ?_
    intro parent₁ hparent₁
    refine (Draw.Yields.lift (hparent slot₂ hslot₂)).bind ?_
    intro parent₂ hparent₂
    exact yields_crossover hparent₁ hparent₂
  · refine hchoose.bind ?_
    intro slot hslot
    refine (Draw.Yields.lift (hparent slot hslot)).bind ?_
    intro parent hparent
    exact yields_mutate haccepted.mutation haccepted.runnable.terminalCount_pos
      haccepted.runnable.terminalCount_le hparent

/-- **What a step does**: unless the words run out, a fitting child is bred and scored, a slot is
drawn, and the child is settled there with its own fitness. Besides that only the scorer and the
supply have changed. -/
theorem step_spec (h : e.Sound settings problem) (haccepted : Accepted settings problem) :
    Answers e.step fun e' => ∃ child supply₁ scorer slot supply₂,
      (Evolution.breed e.settings e.problem.terminalCount e.population).run e.supply =
        .ok (child, supply₁) ∧
      child.Fits settings.maxLength problem.terminalCount ∧
      e.scorer.score child = .ok (child.fitnessOn problem.cases e.bindings.constants, scorer) ∧
      scorer.cases = e.scorer.cases ∧ scorer.bindings.layout = e.scorer.bindings.layout ∧
      (negativeTournament e.population.fitness e.settings.tournamentSize).run supply₁ =
        .ok (slot, supply₂) ∧
      Settled { e with scorer, supply := supply₂ } child
        (child.fitnessOn problem.cases e.bindings.constants) slot e' := by
  have hsize : 0 < e.population.fitness.size := Nat.zero_lt_of_lt h.best_lt
  rw [Evolution.step]
  refine (h.breed haccepted e.supply).attach.bind ?_
  rintro ⟨child, supply₁⟩ ⟨hbreed, hfits⟩
  obtain ⟨scorer, hscore, hcases, hlayout⟩ :=
    e.scorer.score_eq child (h.size_inputs haccepted.runnable)
  rw [h.scorer_cases, h.scorer_constants] at hscore
  have hanswer : Answers (e.scorer.score child) fun r =>
      r = (child.fitnessOn problem.cases e.bindings.constants, scorer) := by
    rw [hscore]
    rfl
  refine hanswer.bind ?_
  intro r hr
  subst hr
  have hloser : Draw.Yields
      (negativeTournament e.population.fitness e.settings.tournamentSize : Draw σ Nat)
      (· < e.population.fitness.size) := yields_contest _ _ hsize _
  refine (hloser supply₁).attach.bind ?_
  rintro ⟨slot, supply₂⟩ ⟨hlose, hslot⟩
  obtain ⟨e', hsettle, hsettled⟩ := settle_spec (e := { e with scorer, supply := supply₂ })
    h.best_lt (e.population.size_fitness ▸ hslot) child
    (child.fitnessOn problem.cases e.bindings.constants)
  show Answers (Evolution.settle _ slot child _) _
  rw [hsettle]
  exact ⟨child, supply₁, scorer, slot, supply₂, hbreed, hfits, hscore, hcases, hlayout, hlose,
    hsettled⟩

/-- **A step keeps a run sound and can only lack words.** -/
theorem step (h : e.Sound settings problem) (haccepted : Accepted settings problem) :
    Answers e.step (Evolution.Sound settings problem) := by
  refine (h.step_spec haccepted).mono fun e' hspec => ?_
  obtain ⟨child, supply₁, scorer, slot, supply₂, -, hfits, -, hcases, hlayout, -, hsettled⟩ := hspec
  exact (h.scored supply₂ hcases hlayout).settled hfits hsettled

end Sound

end Evolution

end SymbolicRegression
