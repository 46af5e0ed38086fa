import SymbolicRegression.Proofs.Evolution.Reporting
import SymbolicRegression.Proofs.Fitness.Zeros

set_option autoImplicit false
set_option relaxedAutoImplicit false

/-!
# Targets out of reach

A run on a problem without constants has only the inputs of a case to make formulas of, and on a
case of zeros these make nothing but zeros. So the target of this case bounds the fitness of every
program in every state of the run. A threshold that is not below this bound is never passed, and
then the run makes all its generations and ends exhausted.

## Main results

* `SymbolicRegression.Evolution.Sound.fitness_le_of_zeros` — the bound on the fitness in every slot.
* `SymbolicRegression.Evolution.Rested.exhausted_of_isFinal` — how a run ends that has not passed
  the threshold.
* `SymbolicRegression.Evolution.unreachable_target` — fitness and end of a run whose target is out
  of reach.
-/

namespace SymbolicRegression

namespace Evolution

variable {σ : Type} {settings : Settings} {problem : Problem} {e : Evolution σ} {c : FitnessCase}

namespace Sound

/-- A run on a problem without constants has none. -/
theorem constants_eq_empty (h : e.Sound settings problem) (hnone : problem.constCount = 0) :
    e.bindings.constants = #[] := by
  have hsize := e.bindings.size_values
  have hterminals := h.size_values
  have hvars := h.varCount_eq
  simp only [Problem.terminalCount, Bindings.layout] at hsize hterminals
  exact Array.eq_empty_of_size_eq_zero (by omega)

/-- **No fitness is above what the target of a case of zeros allows.** -/
theorem fitness_le_of_zeros (h : e.Sound settings problem) (hnone : problem.constCount = 0)
    (hc : c ∈ problem.cases) (hzeros : ∀ v ∈ c.inputs, v == 0.0)
    (htarget : c.target.isFinite = true) {slot : Nat} {x : Float}
    (hx : e.population.fitnessOf slot = .ok x) : x ≤ -c.target.abs := by
  obtain ⟨p, -, hcomplete, rfl⟩ := h.exists_program hx
  refine hcomplete.fitnessOn_le_of_zeros hc ?_ htarget
  rwa [h.constants_eq_empty hnone, Array.append_empty]

/-- **A run is not solved if this is not above the threshold.** -/
theorem isSolved_of_zeros (h : e.Sound settings problem) (hnone : problem.constCount = 0)
    (hc : c ∈ problem.cases) (hzeros : ∀ v ∈ c.inputs, v == 0.0)
    (htarget : c.target.isFinite = true) (hthreshold : settings.solvedThreshold.isNaN = false)
    (hfar : -settings.solvedThreshold ≤ c.target.abs) : e.isSolved = .ok false := by
  obtain ⟨x, hx, hdefined⟩ := h.exists_best
  have hdefined' : c.target.abs.isNaN = false :=
    isNaN_of_isFinite ((isFinite_abs c.target).trans htarget)
  have hle := h.fitness_le_of_zeros hnone hc hzeros htarget hx
  rw [le_iff_rank_le hdefined ((isNaN_neg _).trans hdefined'), rank_neg] at hle
  rw [le_iff_rank_le ((isNaN_neg _).trans hthreshold) hdefined', rank_neg] at hfar
  rw [isSolved_eq hx, h.settings_eq]
  refine congrArg Except.ok (decide_eq_false ?_)
  rw [lt_iff_rank_lt hthreshold hdefined, not_lt]
  exact hle.trans (neg_le.mp hfar)

end Sound

variable [WordSource σ] {supply : Supply σ} {text : String}

/-- A run that has not passed the threshold is not solved, nor between the steps of a generation. -/
theorem Reachable.phase_ne_solved (hread : Problem.read text = .ok problem)
    (h : Reachable settings problem supply e) (hunsolved : e.isSolved = .ok false) :
    e.phase ≠ .solved := by
  intro hsolved
  cases h with
  | rested h => cases hunsolved.symm.trans ((h.orderly hread).solved hsolved)
  | midway _ _ _ _ _ hsteps =>
    -- a generation is made while the run is running, and steps leave the phase alone
    cases (steps_bookkeeping hsteps).2.1.symm.trans hsolved

/-- A run that has ended without passing the threshold is exhausted, and so says its result. -/
theorem Rested.exhausted_of_isFinal (hread : Problem.read text = .ok problem)
    (h : Rested settings problem supply e) (hunsolved : e.isSolved = .ok false)
    (hfinal : e.phase.isFinal = true) : e.phase = .exhausted ∧
      e.generation = settings.generations ∧ ∃ r, e.result = .ok r ∧ r.outcome = .exhausted ∧
        r.generations = settings.generations := by
  have horderly := h.orderly hread
  have hnot := (Reachable.rested h).phase_ne_solved hread hunsolved
  have hphase : e.phase = .exhausted := by
    cases hphase : e.phase with
    | initializing | running => simp [hphase, Phase.isFinal] at hfinal
    | solved => exact absurd hphase hnot
    | exhausted => rfl
  have hall := (horderly.exhausted hphase).2
  obtain ⟨r, hr, hiff, hgenerations, -⟩ := horderly.result_of_isFinal (h.sound hread) hfinal
  have houtcome : r.outcome = .exhausted := by
    cases houtcome : r.outcome with
    | solved => exact absurd (hiff.mp houtcome) hnot
    | exhausted => rfl
  exact ⟨hphase, hall, r, hr, houtcome, hgenerations.trans hall⟩

/-- **A target out of reach.** A complete program has the value zero where everything is bound to
zero, whatever the machine has evaluated before. So if a problem that is read has no constants and
one of its cases has the input zero for every variable, then no fitness in any state of a run is
above the negated magnitude of the target of this case. If this magnitude is at least that of the
threshold, no state of the run is solved, and the run ends exhausted, after exactly as many
generations as asked for; so does every run with reports that comes to a result. -/
theorem unreachable_target :
    (∀ (p : Program) (b : Bindings) (m : Machine), p.IsComplete → (∀ v ∈ b.values, v == 0.0) →
      (m.evaluate p b).1 == 0.0) ∧
    ∀ (text : String) (problem : Problem) (c : FitnessCase) (settings : Settings)
      (supply : Supply σ), Problem.read text = .ok problem → problem.constCount = 0 →
      c ∈ problem.cases → (∀ v ∈ c.inputs, v == 0.0) →
      (∀ e, Reachable settings problem supply e → ∀ slot x,
        e.population.fitnessOf slot = .ok x → x ≤ -c.target.abs) ∧
      (-settings.solvedThreshold ≤ c.target.abs →
        (∀ e, Reachable settings problem supply e →
          e.isSolved = .ok false ∧ e.phase ≠ .solved) ∧
        (∀ e, Rested settings problem supply e →
          ∀ n, settings.generations < e.generation + n →
            Answers (Evolution.advances n e) fun e' =>
              e'.phase = .exhausted ∧ e'.generation = settings.generations ∧
                ∃ r, e'.result = .ok r ∧ r.outcome = .exhausted ∧
                  r.generations = settings.generations) ∧
        ∀ e, Rested settings problem supply e → ∀ (ω : Type) (reporter : Reporter ω) (out : ω) r,
          (e.run reporter out).1 = .ok r →
            r.outcome = .exhausted ∧ r.generations = settings.generations) := by
  refine ⟨fun p b m hp hzeros => hp.evaluate_of_zeros m hzeros, ?_⟩
  intro text problem c settings supply hread hnone hc hzeros
  have htarget := Problem.isFinite_target_of_read hread hc
  refine ⟨?_, ?_⟩
  · intro e h slot x hx
    exact (h.sound hread).2.fitness_le_of_zeros hnone hc hzeros htarget hx
  intro hfar
  have hunsolved : ∀ e, Reachable settings problem supply e → e.isSolved = .ok false := by
    intro e h
    have hthreshold := (Settings.of_check h.check_eq_ok).isNaN_solvedThreshold
    exact (h.sound hread).2.isSolved_of_zeros hnone hc hzeros htarget hthreshold hfar
  refine ⟨fun e h => ⟨hunsolved e h, h.phase_ne_solved hread (hunsolved e h)⟩, ?_, ?_⟩
  · intro e h n hn
    refine (h.advances_isFinal hread hn).attach.mono ?_
    rintro e' ⟨hcalls, hfinal⟩
    have h' := h.advances hcalls
    exact h'.exhausted_of_isFinal hread (hunsolved e' (.rested h')) hfinal
  · intro e h ω reporter out r hanswer
    obtain ⟨n, hran⟩ := h.ran hread reporter out
    obtain ⟨hfinal, hresult⟩ := hran.of_eq_ok hanswer
    have h' := h.run reporter out
    obtain ⟨-, -, r', hr', houtcome, hgenerations⟩ :=
      h'.exhausted_of_isFinal hread (hunsolved _ (.rested h')) hfinal
    obtain rfl := Except.ok.inj (hresult.symm.trans hr')
    exact ⟨houtcome, hgenerations⟩

set_option maxRecDepth 10000 in
/-- Two cases of one variable and no constant, the first at zero with the target five. The quotient
of the variable and the negative zero is zero where the variable is, and the small run ends
exhausted after its only generation. -/
theorem unreachable_target_sample :
    ((Machine.empty.evaluate ⟨[113, 0, 1]⟩ ⟨#[0.0, -0.0], 1, by decide⟩).1 == 0.0) = true ∧
    ∃ problem e, Problem.read "1 0 0 1 2\n0 5\n1 7\n" = .ok problem ∧ problem.constCount = 0 ∧
      ⟨#[0.0], 5.0⟩ ∈ problem.cases ∧ Rested Sample.settings problem Sample.supply e ∧
      (∀ slot x, e.population.fitnessOf slot = .ok x → x ≤ -Float.abs 5.0) ∧
      e.isSolved = .ok false ∧ e.phase = .exhausted ∧ e.generation = Sample.settings.generations ∧
      ∃ r, e.result = .ok r ∧ r.outcome = .exhausted := by
  obtain ⟨hvalue, hruns⟩ := @unreachable_target Cycle _
  have hread : Problem.read "1 0 0 1 2\n0 5\n1 7\n" =
      .ok ⟨1, 0, 0.0, 1.0, [⟨#[0.0], 5.0⟩, ⟨#[1.0], 7.0⟩]⟩ := by rfl
  obtain ⟨e₀, e, hstart, hcalls, hfinal⟩ := Sample.exists_of_reaches
    (show Sample.reaches Sample.settings ⟨1, 0, 0.0, 1.0, [⟨#[0.0], 5.0⟩, ⟨#[1.0], 7.0⟩]⟩ 2
      (fun e => e.phase.isFinal) = true by decide +kernel)
  obtain ⟨hfitness, hfar⟩ := hruns _ _ ⟨#[0.0], 5.0⟩ Sample.settings Sample.supply hread rfl
    List.mem_cons_self (by decide +kernel)
  obtain ⟨hunsolved, hends, -⟩ := hfar (by decide +kernel)
  have hrested := (Rested.start hstart).advances hcalls
  obtain ⟨hphase, hall, r, hr, houtcome, -⟩ := (hends e₀ (.start hstart) 2 (by
    have hsettings : Sample.settings.generations = 1 := rfl
    omega)).of_eq_ok hcalls
  exact ⟨hvalue _ _ _ (by decide) (by decide +kernel), _, e, hread, rfl, List.mem_cons_self,
    hrested, hfitness e (.rested hrested), (hunsolved e (.rested hrested)).1, hphase, hall, r, hr,
    houtcome⟩

end Evolution

end SymbolicRegression
