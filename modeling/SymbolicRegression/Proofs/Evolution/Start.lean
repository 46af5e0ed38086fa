import SymbolicRegression.Proofs.Breeding.Growth
import SymbolicRegression.Proofs.Evolution.Step

set_option autoImplicit false
set_option relaxedAutoImplicit false

/-!
# How a run starts

A run starts only with parameters in range and with a terminal, and it starts sound: its programs
are grown within the limits, scored with the constants that have just been drawn, and searched for
the best slot.

## Main definitions

* `SymbolicRegression.Settings.Checked` — parameters that pass the check.
* `SymbolicRegression.Evolution.begun` — a run as it begins with its first programs.

## Main results

* `SymbolicRegression.Settings.of_check` — the check lets no other parameters pass.
* `SymbolicRegression.Evolution.populate_eq_ok_iff`,
  `SymbolicRegression.Evolution.startFrom_eq_ok_iff`,
  `SymbolicRegression.Evolution.start_eq_ok_iff` — what the parts of a start make of each other.
* `SymbolicRegression.Evolution.accepted_of_start` — the parameters of a run that starts.
* `SymbolicRegression.Evolution.sound_of_start` — a run starts sound.
-/

namespace SymbolicRegression

/-! ## Parameters in range -/

namespace Settings

/-- A checked probability lies between zero and one. -/
theorem of_checkProbability {field : ProbabilityField} {x : Float}
    (h : checkProbability field x = .ok ()) : 0.0 ≤ x ∧ x ≤ 1.0 := by
  unfold checkProbability at h
  split at h
  · assumption
  · cases h

/-- What checked parameters satisfy. -/
structure Checked (s : Settings) : Prop where
  /-- There is a program. -/
  populationSize_pos : 0 < s.populationSize
  /-- A tournament has an entrant. -/
  tournamentSize_pos : 0 < s.tournamentSize
  /-- Programs may have operators. -/
  depth_pos : 0 < s.depth
  /-- There is room for an operator with its operands. -/
  le_maxLength : 3 ≤ s.maxLength
  /-- Crossover has a probability. -/
  crossover : 0.0 ≤ s.crossoverProbability ∧ s.crossoverProbability ≤ 1.0
  /-- Mutation has a probability. -/
  mutation : 0.0 ≤ s.mutationProbability ∧ s.mutationProbability ≤ 1.0
  /-- The threshold is defined. -/
  isNaN_solvedThreshold : s.solvedThreshold.isNaN = false
  /-- A fitness of zero can pass the threshold or equal it. -/
  not_pos_solvedThreshold : ¬ 0.0 < s.solvedThreshold

/-- **The check lets no other parameters pass.** -/
theorem of_check {s : Settings} (h : s.check = .ok ()) : s.Checked := by
  unfold check at h
  simp only at h
  split at h; · cases h
  split at h; · cases h
  split at h; · cases h
  split at h; · cases h
  simp only [bind_eq_ok_iff] at h
  obtain ⟨_, hcrossover, _, hmutation, h⟩ := h
  split at h
  · cases h
  · rename_i hthreshold
    rw [not_or, Bool.not_eq_true] at hthreshold
    exact ⟨by omega, by omega, by omega, by omega, of_checkProbability hcrossover,
      of_checkProbability hmutation, hthreshold.1, hthreshold.2⟩

/-- All parameters that satisfy what checked ones do pass the check. -/
theorem Checked.check_eq_ok {s : Settings} (h : s.Checked) : s.check = .ok () := by
  have hthreshold : ¬ (s.solvedThreshold.isNaN = true ∨ 0.0 < s.solvedThreshold) := by
    rw [h.isNaN_solvedThreshold]
    simpa using h.not_pos_solvedThreshold
  rw [check, if_neg h.populationSize_pos.ne', if_neg h.tournamentSize_pos.ne',
    if_neg h.depth_pos.ne', if_neg (Nat.not_lt.mpr h.le_maxLength), checkProbability,
    checkProbability, if_pos h.crossover, if_pos h.mutation, if_neg hthreshold]
  rfl

end Settings

/-! ## Parts of a start -/

/-- A population is made of programs with a fitness for each of them. -/
theorem Population.ofParts?_eq_some_iff {programs : Array Program} {fitness : Array Float}
    {pop : Population} :
    ofParts? programs fitness = some pop ↔ pop.programs = programs ∧ pop.fitness = fitness := by
  unfold ofParts?
  constructor
  · intro h
    split at h
    · obtain rfl := Option.some.inj h
      exact ⟨rfl, rfl⟩
    · cases h
  · rintro ⟨rfl, rfl⟩
    exact dif_pos ⟨pop.size_fitness, pop.size_pos⟩

/-- A generator within limits has an empty buffer, which can be stored. -/
theorem Generator.eq_fresh_of_ofLimits {maxLength terminals depth : Nat} {g : Generator}
    (h : ofLimits maxLength terminals depth = .ok g) :
    maxLength ≤ Storage.limit ∧ g = fresh maxLength terminals depth := by
  unfold ofLimits at h
  split at h
  · cases h
  · obtain ⟨_, hroom, h⟩ := bind_eq_ok_iff.mp h
    have hroom := (Storage.reserve_eq_ok_iff 1 maxLength).mp hroom
    exact ⟨Nat.one_mul maxLength ▸ hroom, (Except.ok.inj h).symm⟩

variable {σ : Type} [WordSource σ]

/-- A generator adds as many programs as it is asked for, whatever its terminals are. -/
theorem Generator.gives_size_generateMany (n : Nat) (g : Generator) (done : Array Program) :
    Draw.Gives (generateMany n g done : Draw σ (Array Program)) (·.size = done.size + n) := by
  induction n generalizing g done with
  | zero => exact .pure rfl
  | succ n ih =>
    have hany : Draw.Gives (g.generate : Draw σ (Program × Generator)) fun _ => True :=
      fun _ _ _ => trivial
    refine hany.bind fun r _ => (ih r.2 (done.push r.1)).mono fun programs h => ?_
    rw [h, Array.size_push]
    omega

/-- A scorer adds a fitness for each program. -/
theorem Scorer.size_scoreEach {s : Scorer} {programs : List Program} {done fitness : Array Float}
    (h : s.scoreEach programs done = .ok fitness) : fitness.size = done.size + programs.length := by
  induction programs generalizing s done with
  | nil =>
    obtain rfl := Except.ok.inj h
    rfl
  | cons p programs ih =>
    rw [scoreEach, bind_eq_ok_iff] at h
    obtain ⟨r, -, h⟩ := h
    rw [ih h, Array.size_push, List.length_cons]
    omega

/-- A population that is scored has a fitness for each program. -/
theorem size_scorePopulation {programs : List Program} {cases : List FitnessCase}
    {bindings : Bindings} {sideBySide : Bool} {fitness : Array Float}
    (h : scorePopulation programs cases bindings sideBySide = .ok fitness) :
    fitness.size = programs.length := by
  unfold scorePopulation at h
  split at h
  · obtain ⟨scores, hscores, h⟩ := bind_eq_ok_iff.mp h
    obtain rfl := Except.ok.inj h
    rw [List.size_toArray]
    exact (forall₂_of_mapM_eq_ok hscores).length_eq.symm
  · rw [Scorer.size_scoreEach h, Array.size_empty, Nat.zero_add]

namespace Evolution

variable {settings : Settings} {problem : Problem} {supply supply' : Supply σ} {e : Evolution σ}
  {generator : Except Fault Generator} {bindings : Bindings} {programs : Array Program}
  {fitness : Array Float}

/-! ## The first programs -/

/-- **What the first programs are made of**: after the constants and the generator there is to be
room for them, then they are grown, and then they are scored. -/
theorem populate_eq_ok_iff :
    populate generator settings problem supply = .ok (bindings, programs, fitness, supply') ↔
      ∃ (g : Generator) (drawn : Supply σ), generator = .ok g ∧
        (Bindings.sample problem).run supply = .ok (bindings, drawn) ∧
        Storage.reserve Program.entryBytes settings.populationSize = .ok () ∧
        (Generator.generateMany settings.populationSize g #[]).run drawn =
          .ok (programs, supply') ∧
        scorePopulation programs.toList problem.cases bindings settings.parallelEvaluation =
          .ok fitness := by
  simp only [populate, bind_eq_ok_iff]
  constructor
  · rintro ⟨⟨b, drawn⟩, hsample, g, hgenerator, _, hroom, ⟨ps, s⟩, hgenerate, xs, hscore, h⟩
    have hparts := Except.ok.inj h
    simp only [Prod.mk.injEq] at hparts
    obtain ⟨rfl, rfl, rfl, rfl⟩ := hparts
    exact ⟨g, drawn, hgenerator, hsample, hroom, hgenerate, hscore⟩
  · rintro ⟨g, drawn, hgenerator, hsample, hroom, hgenerate, hscore⟩
    exact ⟨_, hsample, g, hgenerator, (), hroom, _, hgenerate, _, hscore, rfl⟩

/-- There are as many first programs as asked for, with a fitness for each. -/
theorem size_of_populate
    (h : populate generator settings problem supply = .ok (bindings, programs, fitness, supply')) :
    programs.size = settings.populationSize ∧ fitness.size = programs.size := by
  obtain ⟨g, drawn, -, -, -, hgenerate, hscore⟩ := populate_eq_ok_iff.mp h
  have hsize := Generator.gives_size_generateMany _ _ _ _ _ hgenerate
  exact ⟨hsize.trans (Nat.zero_add _), size_scorePopulation hscore⟩

/-- What the first programs are: as many as asked for, within the limits, and scored with the
constants drawn before. -/
theorem of_populate (hrun : problem.Runnable)
    (h : populate (Generator.ofLimits settings.maxLength problem.terminalCount settings.depth)
      settings problem supply = .ok (bindings, programs, fitness, supply')) :
    bindings.varCount = problem.varCount ∧ bindings.values.size = problem.terminalCount ∧
      (∀ c ∈ bindings.constants, ∃ w, c = problem.constantOf w) ∧
      programs.size = settings.populationSize ∧
      (∀ p ∈ programs, p.Fits settings.maxLength problem.terminalCount) ∧
      fitness = programs.map fun p => p.fitnessOn problem.cases bindings.constants := by
  obtain ⟨g, drawn, hgenerator, hsample, -, hgenerate, hscore⟩ := populate_eq_ok_iff.mp h
  obtain ⟨hvarCount, hsize, hconstants⟩ := Bindings.of_sample hsample
  obtain ⟨-, rfl⟩ := Generator.eq_fresh_of_ofLimits hgenerator
  have hprograms := (Generator.yields_generateMany hrun.terminalCount_pos hrun.terminalCount_le
    settings.populationSize _ rfl rfl #[] (by simp) drawn).of_eq_ok hgenerate
  rw [scorePopulation_eq _ _ _ _ (hvarCount ▸ hrun.size_inputs)] at hscore
  refine ⟨hvarCount, hsize, hconstants, by simpa using hprograms.1, hprograms.2, ?_⟩
  rw [← Except.ok.inj hscore, ← Array.toList_map, Array.toArray_toList]

/-! ## Starts -/

/-- The run as it begins: with its first programs, and with the record of them. -/
def begun (settings : Settings) (problem : Problem) (bindings : Bindings)
    (population : Population) (supply : Supply σ) : Evolution σ :=
  Evolution.record
    { settings, problem, bindings, population, supply
      scorer := Scorer.fresh problem.cases bindings
      best := population.bestIndex
      generation := 0
      phase := .initializing
      history := #[] }

/-- **A start with a generator**: the first programs are made, and the run begins with them. -/
theorem startFrom_eq_ok_iff :
    startFrom generator settings problem supply = .ok e ↔ ∃ bindings population supply',
      populate generator settings problem supply =
        .ok (bindings, population.programs, population.fitness, supply') ∧
      e = begun settings problem bindings population supply' := by
  simp only [startFrom, bind_eq_ok_iff, mapError_eq_ok_iff]
  constructor
  · rintro ⟨⟨bindings, programs, fitness, supply'⟩, hpopulate, h⟩
    simp only at h
    split at h
    · cases h
    · rename_i population hpopulation
      obtain ⟨rfl, rfl⟩ := Population.ofParts?_eq_some_iff.mp hpopulation
      exact ⟨bindings, population, supply', hpopulate, (Except.ok.inj h).symm⟩
  · rintro ⟨bindings, population, supply', hpopulate, rfl⟩
    have hpopulation : Population.ofParts? population.programs population.fitness =
        some population := Population.ofParts?_eq_some_iff.mpr ⟨rfl, rfl⟩
    refine ⟨_, hpopulate, ?_⟩
    simp only [hpopulation]
    rfl

/-- Such a start fails as its first programs do, and in no other way: once they are made there is
one at least, with a fitness for each. -/
theorem of_startFrom_eq_error {error : EvolutionError} (hpos : 0 < settings.populationSize)
    (h : startFrom generator settings problem supply = .error error) :
    ∃ fault, populate generator settings problem supply = .error fault ∧ error = .fault fault := by
  rcases bind_eq_error_iff.mp h with h | ⟨⟨bindings, programs, fitness, supply'⟩, hpopulate, h⟩
  · obtain ⟨fault, hpopulate, rfl⟩ := mapError_eq_error_iff.mp h
    exact ⟨fault, hpopulate, rfl⟩
  · obtain ⟨hsize, hfitness⟩ := size_of_populate (mapError_eq_ok_iff.mp hpopulate)
    have hpopulation : Population.ofParts? programs fitness =
        some ⟨programs, fitness, hfitness, hsize ▸ hpos⟩ :=
      Population.ofParts?_eq_some_iff.mpr ⟨rfl, rfl⟩
    simp only [hpopulation] at h
    cases h

/-- A start with checked parameters and with terminals comes to the first programs. -/
theorem start_eq_startFrom (hcheck : settings.check = .ok ()) (hpos : 0 < problem.terminalCount)
    (hword : problem.terminalCount < UInt64.size) : start settings problem supply =
      startFrom (Generator.ofLimits settings.maxLength problem.terminalCount settings.depth)
        settings problem supply := by
  rw [start, hcheck, Problem.countTerminals, if_pos hword]
  show (if problem.terminalCount = 0 then _ else _) = _
  rw [if_neg hpos.ne']

/-- **How a run starts**: with checked parameters, with a terminal and with the first programs. -/
theorem start_eq_ok_iff :
    start settings problem supply = .ok e ↔ settings.check = .ok () ∧
      0 < problem.terminalCount ∧ problem.terminalCount < UInt64.size ∧
      startFrom (Generator.ofLimits settings.maxLength problem.terminalCount settings.depth)
        settings problem supply = .ok e := by
  constructor
  · intro h
    have hparts := h
    unfold start at hparts
    simp only [bind_eq_ok_iff, mapError_eq_ok_iff] at hparts
    obtain ⟨_, hcheck, terminals, hterminals, hparts⟩ := hparts
    obtain ⟨hword, rfl⟩ : problem.terminalCount < UInt64.size ∧
        problem.terminalCount = terminals := by
      unfold Problem.countTerminals at hterminals
      split at hterminals
      · exact ⟨‹_›, Except.ok.inj hterminals⟩
      · cases hterminals
    have hpos : 0 < problem.terminalCount := by
      apply Nat.pos_of_ne_zero
      intro hzero
      rw [if_pos hzero] at hparts
      cases hparts
    exact ⟨hcheck, hpos, hword, (start_eq_startFrom hcheck hpos hword).symm.trans h⟩
  · rintro ⟨hcheck, hpos, hword, h⟩
    rw [start_eq_startFrom hcheck hpos hword]
    exact h

/-- **A run that starts has accepted parameters.** -/
theorem accepted_of_start (hrun : problem.Runnable)
    (h : start settings problem supply = .ok e) : Accepted settings problem := by
  have hchecked := Settings.of_check (start_eq_ok_iff.mp h).1
  exact ⟨hchecked.crossover, hchecked.mutation, hrun⟩

/-- **A run starts sound.**

**Proof sketch.** The first programs fill a population of the size asked for, each slot with the
fitness that a new scorer finds, and the contest of all slots finds the best one. -/
theorem sound_of_start (hrun : problem.Runnable)
    (h : start settings problem supply = .ok e) : e.Sound settings problem := by
  obtain ⟨-, -, -, h⟩ := start_eq_ok_iff.mp h
  obtain ⟨bindings, population, supply', hpopulate, rfl⟩ := startFrom_eq_ok_iff.mp h
  obtain ⟨hvarCount, hsize, hconstants, hprograms, hfits, hfitness⟩ :=
    of_populate hrun hpopulate
  have haligned : ∀ (i : Nat) (h : i < population.programs.size)
      (h' : i < population.fitness.size), population.fitness[i] =
        population.programs[i].fitnessOn problem.cases bindings.constants := by
    intro i hi hi'
    simp [hfitness]
  have hranked : Ranked population.fitness := fun i hi => by
    rw [haligned i (population.size_fitness ▸ hi) hi]
    exact Program.isNaN_fitnessOn _ _ _
  refine ⟨rfl, rfl, hvarCount, hsize, hconstants, rfl, rfl, hprograms, fun i hi => ?_,
    haligned, isBest_bestSlot hranked (population.size_fitness ▸ population.size_pos)⟩
  exact hfits _ (Array.getElem_mem hi)

end Evolution

end SymbolicRegression
