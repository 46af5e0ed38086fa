import SymbolicRegression.Proofs.Fitness.Best
import SymbolicRegression.Proofs.Float.Sums

set_option autoImplicit false
set_option relaxedAutoImplicit false

/-!
# Fitness is well ordered

A scorer adds up the errors of a program case by case and looks at the last sum only. A sum that has
become infinite or undefined stays so, so the last one tells whether all of them have been finite.
Therefore the fitness of a program is always defined and never above zero. It is the negated sum of
the errors if all sums on the way are finite, and negative infinity otherwise, which is below the
fitness of every program whose sums are finite.

## Main definitions

* `SymbolicRegression.Scorer.errors` — the errors of a program on the cases of a scorer.
* `SymbolicRegression.partialSums` — what they add up to on the way.

## Main results

* `SymbolicRegression.Scorer.errors_eq` — every case has its error, whatever the scorer has done.
* `SymbolicRegression.Program.fitnessOn_le_zero` — fitness is not above zero.
* `SymbolicRegression.Scorer.score_wellOrdered` — which fitness a scorer finds.
-/

namespace SymbolicRegression

/-- The errors of a program on the cases of a scorer, in their order: how far its value is from the
target when the inputs of the case are bound. -/
def Scorer.errors (s : Scorer) (p : Program) : Except Fault (List Float) :=
  s.cases.mapM fun c => do
    let b ← s.bindings.bind c.inputs
    return (p.evaluate b - c.target).abs

/-- What a row of errors adds up to on the way: the sum of none, of the first, of the first two and
so on, up to the sum of all. -/
def partialSums (errors : List Float) : List Float := errors.scanl (· + ·) 0.0

/-! ## Errors -/

namespace Program

/-- The errors of a program on a list of cases under constants, in order. -/
def errorsOn (p : Program) (cases : List FitnessCase) (constants : Array Float) : List Float :=
  cases.map fun c => (p.valueAt (c.inputs ++ constants) - c.target).abs

variable (p : Program) (cases : List FitnessCase) (constants : Array Float)

/-- The error of a program is what its errors on the cases add up to. -/
theorem errorOn_eq_foldl : p.errorOn cases constants =
    (p.errorsOn cases constants).foldl (· + ·) 0.0 := by
  rw [errorsOn, List.foldl_map]
  rfl

/-- No error is below zero. -/
theorem isMagnitude_of_mem_errorsOn {y : Float} (hy : y ∈ p.errorsOn cases constants) :
    IsMagnitude y := by
  obtain ⟨c, -, rfl⟩ := List.mem_map.mp hy
  exact isMagnitude_abs _

/-- The error of a program is finite just if all sums on the way to it are. -/
theorem forall_isFinite_partialSums_iff :
    (∀ y ∈ partialSums (p.errorsOn cases constants), y.isFinite = true) ↔
      (p.errorOn cases constants).isFinite = true := by
  rw [errorOn_eq_foldl]
  exact forall_isFinite_scanl_iff

/-- **The fitness of a program is not above zero.**

**Proof sketch.** A finite error is a sum of magnitudes, added up from zero. -/
theorem fitnessOn_le_zero : p.fitnessOn cases constants ≤ 0.0 := by
  rw [fitnessOn, Scorer.fitnessOfError]
  split
  · rename_i hfinite
    refine IsMagnitude.neg_le_zero ?_ (isNaN_of_isFinite hfinite)
    rw [errorOn_eq_foldl] at hfinite ⊢
    exact isMagnitude_foldl_add (le_refl (rank 0.0))
      (fun y hy => p.isMagnitude_of_mem_errorsOn cases constants hy) hfinite
  · decide +kernel

variable {p cases constants}

/-- The fitness of a program of finite error is the negated error, and finite. -/
theorem fitnessOn_of_isFinite (h : (p.errorOn cases constants).isFinite = true) :
    p.fitnessOn cases constants = -p.errorOn cases constants ∧
      (p.fitnessOn cases constants).isFinite = true := by
  have hfitness : p.fitnessOn cases constants = -p.errorOn cases constants := if_pos h
  exact ⟨hfitness, hfitness ▸ (isFinite_neg _).trans h⟩

/-- The fitness of a program whose error is infinite or undefined is negative infinity. -/
theorem fitnessOn_of_not_isFinite (h : (p.errorOn cases constants).isFinite = false) :
    p.fitnessOn cases constants = -(1.0 / 0.0) := by
  rw [fitnessOn, Scorer.fitnessOfError, if_neg (by simp [h])]

end Program

/-! ## Scores -/

namespace Scorer

variable {s : Scorer}

/-- **Every case has its error**, and the inputs that have been bound before do not matter. -/
theorem errors_eq (h : ∀ c ∈ s.cases, c.inputs.size = s.bindings.varCount) (p : Program) :
    s.errors p = .ok (p.errorsOn s.cases s.bindings.constants) := by
  refine mapM_eq_ok_iff.mpr (List.forall₂_map_right_iff.mpr (List.forall₂_same.mpr ?_))
  intro c hc
  obtain ⟨b, hbind, hvalues, -⟩ := Bindings.bind_eq (h c hc)
  rw [← hvalues, hbind]
  rfl

/-- **Fitness is well ordered.** If every case has an input for each variable, a scorer finds a
fitness for every program, whatever it has scored before and whatever numbers are bound, and this
fitness is defined and not above zero. If all sums of the errors on the way are finite, it is the
negated sum of all errors, added up from zero in the order of the cases. As soon as one sum is
infinite or undefined, it is negative infinity, whatever the cases behind contribute, and then it is
less than that of any program whose sums are finite. -/
theorem score_wellOrdered (h : ∀ c ∈ s.cases, c.inputs.size = s.bindings.varCount)
    (p : Program) :
    ∃ errors x s', s.errors p = .ok errors ∧ s.score p = .ok (x, s') ∧
      x.isNaN = false ∧ x ≤ 0.0 ∧
      ((∀ y ∈ partialSums errors, y.isFinite = true) → x = -errors.foldl (· + ·) 0.0) ∧
      ((∃ y ∈ partialSums errors, y.isFinite = false) → x = -(1.0 / 0.0) ∧
        ∀ q errors' x' s'', s.errors q = .ok errors' → s.score q = .ok (x', s'') →
          (∀ y ∈ partialSums errors', y.isFinite = true) → x < x') := by
  obtain ⟨s', hscore, -, -⟩ := s.score_eq p h
  refine ⟨_, _, s', errors_eq h p, hscore, p.isNaN_fitnessOn _ _, p.fitnessOn_le_zero _ _, ?_, ?_⟩
  · intro hsums
    rw [Program.forall_isFinite_partialSums_iff] at hsums
    rw [← Program.errorOn_eq_foldl]
    exact (Program.fitnessOn_of_isFinite hsums).1
  · rintro ⟨y, hy, hinfinite⟩
    have herror : (p.errorOn s.cases s.bindings.constants).isFinite = false := by
      by_contra hfinite
      rw [Bool.not_eq_false, ← Program.forall_isFinite_partialSums_iff] at hfinite
      exact absurd (hfinite y hy) (by simp [hinfinite])
    have hleast := Program.fitnessOn_of_not_isFinite herror
    refine ⟨hleast, ?_⟩
    intro q errors' x' s'' herrors' hscore' hsums'
    obtain ⟨_, hscore'', -, -⟩ := s.score_eq q h
    obtain rfl := Except.ok.inj ((errors_eq h q).symm.trans herrors')
    obtain ⟨rfl, -⟩ := Prod.mk.inj (Except.ok.inj (hscore''.symm.trans hscore'))
    rw [Program.forall_isFinite_partialSums_iff] at hsums'
    rw [hleast]
    exact neg_infinity_lt (Program.fitnessOn_of_isFinite hsums').2

/-- A constant is infinite. The product of the variable with it is infinite on the first case and
undefined on the second, and its fitness is negative infinity; the variable by itself has the
fitness minus three. -/
theorem score_wellOrdered_sample :
    let s : Scorer := .fresh [⟨#[3.0], 5.0⟩, ⟨#[0.0], 1.0⟩] ⟨#[0.0, 1.0 / 0.0], 1, by decide⟩
    (∀ c ∈ s.cases, c.inputs.size = s.bindings.varCount) ∧
      s.errors ⟨[112, 0, 1]⟩ = .ok [1.0 / 0.0, 0.0 / 0.0] ∧ s.errors ⟨[0]⟩ = .ok [2.0, 1.0] ∧
      ∃ x s' x' s'', s.score ⟨[112, 0, 1]⟩ = .ok (x, s') ∧ s.score ⟨[0]⟩ = .ok (x', s'') ∧
        x = -(1.0 / 0.0) ∧ x' = -3.0 ∧ x < x' := by
  have hproduct : (Scorer.fresh [⟨#[3.0], 5.0⟩, ⟨#[0.0], 1.0⟩]
      ⟨#[0.0, 1.0 / 0.0], 1, by decide⟩).errors ⟨[112, 0, 1]⟩ = .ok [1.0 / 0.0, 0.0 / 0.0] := by rfl
  have hvariable : (Scorer.fresh [⟨#[3.0], 5.0⟩, ⟨#[0.0], 1.0⟩]
      ⟨#[0.0, 1.0 / 0.0], 1, by decide⟩).errors ⟨[0]⟩ = .ok [2.0, 1.0] := by rfl
  have hsum : -[2.0, 1.0].foldl (· + ·) (0.0 : Float) = -3.0 := by rfl
  have hinfinite : ∃ y ∈ partialSums [1.0 / 0.0, 0.0 / 0.0], y.isFinite = false := by
    decide +kernel
  have hfinite : ∀ y ∈ partialSums [2.0, 1.0], y.isFinite = true := by decide +kernel
  intro s
  have hcases : ∀ c ∈ s.cases, c.inputs.size = s.bindings.varCount := by simp [s, fresh]
  obtain ⟨errors, x, s', herrors, hscore, -, -, -, hleast⟩ := score_wellOrdered hcases ⟨[112, 0, 1]⟩
  obtain ⟨errors', x', s'', herrors', hscore', -, -, htotal, -⟩ := score_wellOrdered hcases ⟨[0]⟩
  obtain rfl := Except.ok.inj (hproduct.symm.trans herrors)
  obtain rfl := Except.ok.inj (hvariable.symm.trans herrors')
  obtain ⟨hx, hless⟩ := hleast hinfinite
  exact ⟨hcases, hproduct, hvariable, x, s', x', s'', hscore, hscore', hx,
    (htotal hfinite).trans hsum, hless ⟨[0]⟩ _ x' s'' hvariable hscore' hfinite⟩

end Scorer

end SymbolicRegression
