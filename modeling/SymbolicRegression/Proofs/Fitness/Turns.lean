import Mathlib.Logic.Function.Basic
import SymbolicRegression.Proofs.Fitness.Scoring

set_option autoImplicit false
set_option relaxedAutoImplicit false

/-!
# Scoring in turns

Scorers that share a population take its programs in turns. In every turn one of them scores one
program, with all that its earlier turns have left in it, and the score is noted in the slot of
the program. Turns are taken in any order, by any number of scorers and with any share of the
programs for each of them.

Scoring has no memory, so it does not matter who takes a program, nor when: the scores noted are
those of a single scorer that takes the programs one after another.

## Main definitions

* `SymbolicRegression.Turn` — which scorer takes which program.
* `SymbolicRegression.Crew` — the scorers, with the scores noted so far.
* `SymbolicRegression.Crew.take` — the effect of one turn.
* `SymbolicRegression.scoreInTurns` — the scores noted at the end of a row of turns.

## Main results

* `SymbolicRegression.Crew.Agrees.take` — what one turn notes.
* `SymbolicRegression.Crew.Agrees.takeAll` — what a row of turns notes.
* `SymbolicRegression.scoreInTurns_eq_scorePopulation` — every way to share the work gives the
  fitness of the population.
-/

namespace SymbolicRegression

/-- A scorer takes a program. -/
structure Turn where
  /-- The number of the scorer. -/
  scorer : Nat
  /-- The slot of the program. -/
  slot : Nat
  deriving DecidableEq, Repr

/-- Scorers that share a population. -/
structure Crew where
  /-- The scorers by their numbers, each as its earlier turns have left it. -/
  scorers : Nat → Scorer
  /-- The score of every slot that has had its turn. -/
  scores : Array (Option Float)

namespace Crew

/-- Scorers that have scored nothing yet, and no score for any of `size` programs. -/
def fresh (cases : List FitnessCase) (bindings : Bindings) (size : Nat) : Crew :=
  ⟨fun _ => Scorer.fresh cases bindings, Array.replicate size none⟩

/-- One turn: the scorer scores the program, and the score is noted in the slot. -/
def take (programs : List Program) (crew : Crew) (turn : Turn) : Except Fault Crew :=
  match programs[turn.slot]? with
  | none => .error (.noSlot turn.slot programs.length)
  | some p => do
    let (x, s) ← (crew.scorers turn.scorer).score p
    return ⟨Function.update crew.scorers turn.scorer s,
      crew.scores.setIfInBounds turn.slot (some x)⟩

end Crew

/-- The scores noted when fresh scorers have taken their turns. -/
def scoreInTurns (programs : List Program) (cases : List FitnessCase) (bindings : Bindings)
    (turns : List Turn) : Except Fault (Array (Option Float)) := do
  let crew ← turns.foldlM (Crew.take programs) (Crew.fresh cases bindings programs.length)
  return crew.scores

namespace Crew

variable {programs : List Program} {cases : List FitnessCase} {bindings : Bindings}
  {taken : List Nat} {crew : Crew}

/-- When the slots in `taken` have had their turns, every scorer still looks at the cases and
holds the constants, and just these slots have a score, the fitness of their program. -/
structure Agrees (programs : List Program) (cases : List FitnessCase) (bindings : Bindings)
    (taken : List Nat) (crew : Crew) : Prop where
  /-- The scorers look at the cases. -/
  cases_eq : ∀ k, (crew.scorers k).cases = cases
  /-- The scorers hold as many variables as the table that they have been made with, and its
  constants. -/
  layout_eq : ∀ k, (crew.scorers k).bindings.layout = bindings.layout
  /-- There is a place for every score. -/
  size_scores : crew.scores.size = programs.length
  /-- The scores noted are those of the slots that have had their turns. -/
  score_eq : ∀ slot p, programs[slot]? = some p →
    crew.scores[slot]? =
      some (if slot ∈ taken then some (p.fitnessOn cases bindings.constants) else none)

/-- Before the first turn no slot has a score. -/
theorem agrees_fresh (programs : List Program) (cases : List FitnessCase) (bindings : Bindings) :
    Agrees programs cases bindings [] (fresh cases bindings programs.length) where
  cases_eq _ := rfl
  layout_eq _ := rfl
  size_scores := Array.size_replicate
  score_eq slot p hp := by
    have hslot := (List.getElem?_eq_some_iff.mp hp).1
    simp [fresh, hslot]

/-- **What one turn notes.** The turn of a slot comes to its end whatever scorer takes it, and it
notes the fitness of the program. -/
theorem Agrees.take (h : Agrees programs cases bindings taken crew)
    (hcases : ∀ c ∈ cases, c.inputs.size = bindings.varCount) {turn : Turn}
    (hturn : turn.slot < programs.length) : ∃ crew', crew.take programs turn = .ok crew' ∧
      Agrees programs cases bindings (turn.slot :: taken) crew' := by
  have hvarCount : (crew.scorers turn.scorer).bindings.varCount = bindings.varCount :=
    congrArg Layout.varCount (h.layout_eq turn.scorer)
  have hconstants : (crew.scorers turn.scorer).bindings.constants = bindings.constants :=
    congrArg Layout.constants (h.layout_eq turn.scorer)
  -- the scorer's past enters only through its cases and its layout, which the turns keep
  obtain ⟨s, hscore, hscases, hslayout⟩ := (crew.scorers turn.scorer).score_eq
    programs[turn.slot] (by rwa [h.cases_eq, hvarCount])
  rw [h.cases_eq, hconstants] at hscore
  have htake : crew.take programs turn = .ok
      ⟨Function.update crew.scorers turn.scorer s, crew.scores.setIfInBounds turn.slot
        (some (programs[turn.slot].fitnessOn cases bindings.constants))⟩ := by
    simp only [Crew.take, List.getElem?_eq_getElem hturn, hscore]
    rfl
  refine ⟨_, htake, ?_, ?_, ?_, ?_⟩
  · exact (Function.forall_update_iff crew.scorers fun _ s' => s'.cases = cases).mpr
      ⟨hscases.trans (h.cases_eq _), fun k _ => h.cases_eq k⟩
  · exact (Function.forall_update_iff crew.scorers
      fun _ s' => s'.bindings.layout = bindings.layout).mpr
        ⟨hslayout.trans (h.layout_eq _), fun k _ => h.layout_eq k⟩
  · rw [Array.size_setIfInBounds, h.size_scores]
  · intro slot p hp
    by_cases hslot : slot = turn.slot
    · subst hslot
      obtain rfl : programs[turn.slot] = p := by simpa [List.getElem?_eq_getElem hturn] using hp
      rw [Array.getElem?_setIfInBounds_self_of_lt (by rwa [h.size_scores])]
      simp
    · rw [Array.getElem?_setIfInBounds_ne (Ne.symm hslot), h.score_eq slot p hp]
      simp [hslot]

/-- **What a row of turns notes**: in whatever order and by whatever scorers they are taken, the
fitness of every program whose slot is among them. -/
theorem Agrees.takeAll (h : Agrees programs cases bindings taken crew)
    (hcases : ∀ c ∈ cases, c.inputs.size = bindings.varCount) {turns : List Turn}
    (hturns : ∀ turn ∈ turns, turn.slot < programs.length) :
    ∃ crew', turns.foldlM (Crew.take programs) crew = .ok crew' ∧
      Agrees programs cases bindings ((turns.map Turn.slot).reverse ++ taken) crew' := by
  induction turns generalizing crew taken with
  | nil => exact ⟨crew, rfl, h⟩
  | cons turn turns ih =>
    obtain ⟨crew₁, htake, h₁⟩ := h.take hcases (hturns turn List.mem_cons_self)
    obtain ⟨crew₂, hrest, h₂⟩ := ih h₁ fun turn' hturn' =>
      hturns turn' (List.mem_cons_of_mem turn hturn')
    refine ⟨crew₂, ?_, ?_⟩
    · rw [List.foldlM_cons, htake]
      exact hrest
    · simpa using h₂

/-- When every slot has had its turn, the scores are the fitness of the programs in their order. -/
theorem Agrees.scores_eq (h : Agrees programs cases bindings taken crew)
    (htaken : ∀ slot, slot < programs.length → slot ∈ taken) :
    crew.scores =
      (programs.map fun p => some (p.fitnessOn cases bindings.constants)).toArray := by
  refine Array.ext_getElem? fun slot => ?_
  by_cases hslot : slot < programs.length
  · rw [h.score_eq slot _ (List.getElem?_eq_getElem hslot), if_pos (htaken slot hslot)]
    simp [hslot]
  · rw [Array.getElem?_eq_none (by rw [h.size_scores]; omega)]
    simp [not_lt.mp hslot]

end Crew

/-- **Every way to share the work gives the fitness of the population.** If the turns take every
program once, in any order and by any scorers, then all of them come to their end, and the scores
noted are those of a population scored in order by one scorer, and also those of a population with
a scorer for each program: one score for each program, in its slot. -/
theorem scoreInTurns_eq_scorePopulation {programs : List Program} {cases : List FitnessCase}
    {bindings : Bindings} {turns : List Turn}
    (hcases : ∀ c ∈ cases, c.inputs.size = bindings.varCount)
    (hturns : (turns.map Turn.slot).Perm (List.range programs.length)) :
    ∃ fitness, scorePopulation programs cases bindings false = .ok fitness ∧
      scorePopulation programs cases bindings true = .ok fitness ∧
      fitness.size = programs.length ∧
      scoreInTurns programs cases bindings turns = .ok (fitness.map some) := by
  refine ⟨_, scorePopulation_eq programs cases bindings false hcases,
    scorePopulation_eq programs cases bindings true hcases, by simp, ?_⟩
  have hslots : ∀ turn ∈ turns, turn.slot < programs.length := fun turn hturn =>
    List.mem_range.mp (hturns.mem_iff.mp (List.mem_map_of_mem hturn))
  obtain ⟨crew, hcrew, hagrees⟩ :=
    (Crew.agrees_fresh programs cases bindings).takeAll hcases hslots
  have hscores := hagrees.scores_eq fun slot hslot => by
    simpa using hturns.mem_iff.mpr (List.mem_range.mpr hslot)
  simp only [scoreInTurns, hcrew]
  exact congrArg Except.ok (hscores.trans (by simp))

/-- Two scorers share three programs on two cases of one variable, with one constant: one of them
takes the last program and then the first, and the other takes the second in between. -/
theorem scoreInTurns_eq_scorePopulation_sample :
    let programs : List Program := [⟨[0]⟩, ⟨[110, 0, 1]⟩, ⟨[113, 1, 0]⟩]
    let cases : List FitnessCase := [⟨#[3.0], 5.0⟩, ⟨#[0.0], 1.0⟩]
    let bindings : Bindings := ⟨#[0.0, 2.5], 1, by decide⟩
    let turns : List Turn := [⟨7, 2⟩, ⟨4, 1⟩, ⟨7, 0⟩]
    (∀ c ∈ cases, c.inputs.size = bindings.varCount) ∧
      (turns.map Turn.slot).Perm (List.range programs.length) ∧
      ∃ fitness, scorePopulation programs cases bindings false = .ok fitness ∧
        scorePopulation programs cases bindings true = .ok fitness ∧ fitness.size = 3 ∧
        scoreInTurns programs cases bindings turns = .ok (fitness.map some) := by
  intro programs cases bindings turns
  have hcases : ∀ c ∈ cases, c.inputs.size = bindings.varCount := by simp [cases, bindings]
  have hturns : (turns.map Turn.slot).Perm (List.range programs.length) := by decide
  exact ⟨hcases, hturns, scoreInTurns_eq_scorePopulation hcases hturns⟩

end SymbolicRegression
