import Mathlib.Tactic.Common
import SymbolicRegression.Fitness.Scorer
import SymbolicRegression.Formula.Text
import SymbolicRegression.Proofs.Outcome
import SymbolicRegression.Proofs.Program.Value

set_option autoImplicit false
set_option relaxedAutoImplicit false

/-!
# Scoring has no memory

A scorer binds the inputs of every case anew and keeps the constants, and its machine forgets what
it has evaluated. So the fitness of a program depends on the cases and the constants alone, not on
the programs scored before, and a population scored side by side has the fitness of one scored in
turn.

## Main definitions

* `SymbolicRegression.Program.errorOn` — the errors of a program on a list of cases, added up.
* `SymbolicRegression.Program.fitnessOn` — the fitness that this sum stands for.

## Main results

* `SymbolicRegression.Scorer.score_eq` — the fitness that a scorer finds, whatever its history.
* `SymbolicRegression.Scorer.score_congr` — formulas of the same value on every case are scored
  alike.
* `SymbolicRegression.scorePopulation_eq` — the fitness of a population, scored either way.
-/

namespace SymbolicRegression

/-! ## Tables of bound values -/

namespace Bindings

/-- A table holds its variables and its constants. -/
theorem size_values (b : Bindings) :
    b.values.size = b.layout.varCount + b.layout.constants.size := by
  have h := b.varCount_le
  simp only [layout, constants, Array.size_extract]
  omega

/-- A table holds a row of inputs before its constants. -/
lemma exists_inputs (b : Bindings) : ∃ inputs : Array Float,
    inputs.size = b.varCount ∧ b.values = inputs ++ b.constants := by
  have hle := b.varCount_le
  refine ⟨b.values.extract 0 b.varCount, ?_, ?_⟩
  · rw [Array.size_extract, Nat.min_eq_left hle, Nat.sub_zero]
  · rw [constants, Array.extract_append_extract, Nat.zero_min, Nat.max_eq_right hle,
      Array.extract_size]

/-- Binding a row of the right length puts it before the constants, and keeps the layout. -/
theorem bind_eq {b : Bindings} {inputs : Array Float} (h : inputs.size = b.varCount) :
    ∃ b', b.bind inputs = .ok b' ∧ b'.values = inputs ++ b.constants ∧ b'.layout = b.layout := by
  refine ⟨_, dif_pos h, rfl, ?_⟩
  have hle := b.varCount_le
  have hstop : min (b.varCount + (b.values.size - b.varCount)) b.values.size = b.values.size := by
    omega
  simp only [layout, Layout.mk.injEq, true_and]
  simp [constants, ← h, Array.extract_append, h ▸ hstop]

/-- Binding a row keeps the layout. -/
theorem layout_of_bind {b b' : Bindings} {inputs : Array Float} (h : b.bind inputs = .ok b') :
    b'.layout = b.layout := by
  have hsize : inputs.size = b.varCount := by
    by_contra hne
    rw [bind, dif_neg hne] at h
    cases h
  obtain ⟨b₁, hbind, -, hlayout⟩ := bind_eq hsize
  rw [hbind] at h
  obtain rfl := Except.ok.inj h
  exact hlayout

/-- What a row is bound to depends on the layout alone. -/
theorem bind_congr {b b' : Bindings} (h : b'.layout = b.layout) (inputs : Array Float) :
    b'.bind inputs = b.bind inputs := by
  have hvarCount : b'.varCount = b.varCount := congrArg Layout.varCount h
  have hconstants : b'.constants = b.constants := congrArg Layout.constants h
  unfold bind
  split
  · rename_i hsize
    rw [dif_pos (hsize.trans hvarCount)]
    simp only [hconstants, hvarCount]
  · rename_i hsize
    rw [dif_neg (hvarCount ▸ hsize), hvarCount]

end Bindings

/-! ## The fitness of a program -/

/-- The errors of a program on a list of cases, added up in order from zero. -/
def Program.errorOn (p : Program) (cases : List FitnessCase) (constants : Array Float) : Float :=
  cases.foldl (fun error c => error + (p.valueAt (c.inputs ++ constants) - c.target).abs) 0.0

/-- The fitness of a program on a list of cases. -/
def Program.fitnessOn (p : Program) (cases : List FitnessCase) (constants : Array Float) : Float :=
  Scorer.fitnessOfError (p.errorOn cases constants)

namespace Scorer

/-- The errors on further cases are added to those before, and the scorer keeps its layout.

**Proof sketch.** Induction on the cases: each binds its own inputs before the constants that the
layout keeps. -/
theorem foldlM_addError (p : Program) (cases : List FitnessCase) (error : Float) (s : Scorer)
    (h : ∀ c ∈ cases, c.inputs.size = s.bindings.varCount) :
    ∃ s', cases.foldlM (addError p) (error, s) = .ok (cases.foldl (fun error c =>
        error + (p.valueAt (c.inputs ++ s.bindings.constants) - c.target).abs) error, s') ∧
      s'.cases = s.cases ∧ s'.bindings.layout = s.bindings.layout := by
  induction cases generalizing error s with
  | nil => exact ⟨s, rfl, rfl, rfl⟩
  | cons c cases ih =>
    obtain ⟨b, hbind, hvalues, hlayout⟩ := Bindings.bind_eq (h c (by simp))
    have hvarCount : b.varCount = s.bindings.varCount := congrArg Layout.varCount hlayout
    have hconstants : b.constants = s.bindings.constants := congrArg Layout.constants hlayout
    obtain ⟨s', hs', hcases, hs'layout⟩ := ih
      (error + (p.valueAt (c.inputs ++ s.bindings.constants) - c.target).abs)
      { s with bindings := b, machine := (s.machine.evaluate p b).2 }
      (fun c' hc' => (h c' (by simp [hc'])).trans hvarCount.symm)
    refine ⟨s', ?_, hcases, hs'layout.trans hlayout⟩
    have hadd : addError p (error, s) c =
        .ok (error + (p.valueAt (c.inputs ++ s.bindings.constants) - c.target).abs,
          { s with bindings := b, machine := (s.machine.evaluate p b).2 }) := by
      simp only [addError, hbind]
      show Except.ok (error + ((s.machine.evaluate p b).1 - c.target).abs, _) = _
      rw [Machine.evaluate_fst, hvalues]
    rw [List.foldlM_cons, hadd]
    exact hconstants ▸ hs'

/-- **The fitness that a scorer finds does not depend on its history**: it is the fitness of the
program under the constants of the scorer, which the scorer keeps. -/
theorem score_eq (s : Scorer) (p : Program)
    (h : ∀ c ∈ s.cases, c.inputs.size = s.bindings.varCount) :
    ∃ s', s.score p = .ok (p.fitnessOn s.cases s.bindings.constants, s') ∧
      s'.cases = s.cases ∧ s'.bindings.layout = s.bindings.layout := by
  obtain ⟨s', hs', hcases, hlayout⟩ := foldlM_addError p s.cases 0.0 s h
  refine ⟨s', ?_, hcases, hlayout⟩
  simp only [score, hs']
  rfl

/-- A scorer that takes programs in turn gives each its fitness, whatever came before. -/
theorem scoreEach_eq (s : Scorer) (programs : List Program) (done : Array Float)
    (h : ∀ c ∈ s.cases, c.inputs.size = s.bindings.varCount) :
    s.scoreEach programs done =
      .ok (done ++ (programs.map fun p => p.fitnessOn s.cases s.bindings.constants).toArray) := by
  induction programs generalizing s done with
  | nil => simp [scoreEach]
  | cons p programs ih =>
    obtain ⟨s', hs', hcases, hlayout⟩ := s.score_eq p h
    have hvarCount : s'.bindings.varCount = s.bindings.varCount := congrArg Layout.varCount hlayout
    have hconstants : s'.bindings.constants = s.bindings.constants :=
      congrArg Layout.constants hlayout
    have hrest := ih s' (done.push (p.fitnessOn s.cases s.bindings.constants))
      (by rwa [hcases, hvarCount])
    rw [hcases, hconstants] at hrest
    simp only [scoreEach, hs']
    refine hrest.trans ?_
    simp

/-! ## Programs with the same values -/

variable {p q : Program}

/-- Adding an error keeps the layout. -/
theorem layout_of_addError {c : FitnessCase} {error : Float} {s : Scorer} {r : Float × Scorer}
    (h : addError p (error, s) c = .ok r) : r.2.bindings.layout = s.bindings.layout := by
  obtain ⟨b, hbind, h⟩ := bind_eq_ok_iff.mp h
  obtain rfl := Except.ok.inj h
  exact Bindings.layout_of_bind hbind

/-- Formulas of the same value on a case have the same error there. -/
theorem addError_congr (hp : p.IsComplete) (hq : q.IsComplete) {c : FitnessCase} {s : Scorer}
    (h : ∀ b, s.bindings.bind c.inputs = .ok b → q.evaluate b = p.evaluate b) (error : Float) :
    addError q (error, s) c = addError p (error, s) c := by
  have hevaluate : ∀ b, s.bindings.bind c.inputs = .ok b →
      s.machine.evaluate q b = s.machine.evaluate p b := fun b hb => by
    rw [hp.evaluate_eq, hq.evaluate_eq, h b hb]
  exact bind_congr_ok fun b hb => by rw [hevaluate b hb]

/-- **Formulas of the same value on every case have the same fitness**, and the scorer is the same
afterwards. If a case does not fit the table, neither is scored.

**Proof sketch.** Induction on the cases. What the next one is bound to does not depend on those
before it, since the scorer keeps its layout. -/
theorem score_congr (hp : p.IsComplete) (hq : q.IsComplete) {s : Scorer}
    (h : ∀ c ∈ s.cases, ∀ b, s.bindings.bind c.inputs = .ok b → q.evaluate b = p.evaluate b) :
    s.score q = s.score p := by
  have hfold : ∀ (cases : List FitnessCase) (error : Float) (s' : Scorer),
      s'.bindings.layout = s.bindings.layout →
      (∀ c ∈ cases, ∀ b, s.bindings.bind c.inputs = .ok b → q.evaluate b = p.evaluate b) →
      cases.foldlM (addError q) (error, s') = cases.foldlM (addError p) (error, s') := by
    intro cases
    induction cases with
    | nil =>
      intro error s' _ _
      rw [List.foldlM_nil, List.foldlM_nil]
    | cons c cases ih =>
      intro error s' hlayout hagree
      have hadd : addError q (error, s') c = addError p (error, s') c := by
        refine addError_congr hp hq ?_ error
        rw [Bindings.bind_congr hlayout]
        exact hagree c List.mem_cons_self
      rw [List.foldlM_cons, List.foldlM_cons, hadd]
      exact bind_congr_ok fun r hr => ih r.1 r.2 ((layout_of_addError hr).trans hlayout)
        fun c' hc' => hagree c' (List.mem_cons_of_mem c hc')
  rw [score, score, hfold s.cases 0.0 s rfl h]

end Scorer

/-- **The fitness of a population**, scored side by side or in turn. -/
theorem scorePopulation_eq (programs : List Program) (cases : List FitnessCase)
    (bindings : Bindings) (sideBySide : Bool)
    (h : ∀ c ∈ cases, c.inputs.size = bindings.varCount) :
    scorePopulation programs cases bindings sideBySide =
      .ok (programs.map fun p => p.fitnessOn cases bindings.constants).toArray := by
  unfold scorePopulation
  split
  · have hscore : ∀ p : Program, ((Scorer.fresh cases bindings).score p >>= fun r => pure r.1) =
        (pure (p.fitnessOn cases bindings.constants) : Except Fault Float) := fun p => by
      obtain ⟨s', hs', -, -⟩ := (Scorer.fresh cases bindings).score_eq p h
      rw [hs']
      rfl
    simp only [hscore, List.mapM_pure, pure_bind]
    rfl
  · rw [Scorer.scoreEach_eq _ _ _ h]
    simp [Scorer.fresh]

end SymbolicRegression
