import Mathlib.Data.Prod.Lex
import SymbolicRegression.Fitness.Summary
import SymbolicRegression.Proofs.Breeding.Tournament
import SymbolicRegression.Proofs.Fitness.Scoring
import SymbolicRegression.Proofs.Float.Order

set_option autoImplicit false
set_option relaxedAutoImplicit false

/-!
# The best slot

No program has an undefined fitness, so the slots of a population are ordered by the rank of their
fitness and there is a greatest one. A slot of greatest fitness is found by a contest of all slots,
and after a change of one slot it is found again by at most one comparison, unless the best slot
itself got worse.

## Main definitions

* `SymbolicRegression.Ranked` — no fitness is undefined.
* `SymbolicRegression.IsBest` — a slot of greatest fitness.

## Main results

* `SymbolicRegression.Program.isNaN_fitnessOn` — the fitness of a program is defined.
* `SymbolicRegression.isBest_bestSlot` — the contest of all slots finds a best slot.
* `SymbolicRegression.IsBest.set_of_not_lt`, `SymbolicRegression.IsBest.set_of_lt`,
  `SymbolicRegression.IsBest.set_self` — a best slot after a change of one slot.
-/

namespace SymbolicRegression

/-! ## Fitness is defined -/

/-- The fitness that a sum of errors stands for is defined, even if the sum is not. -/
theorem Scorer.isNaN_fitnessOfError (error : Float) :
    (Scorer.fitnessOfError error).isNaN = false := by
  unfold Scorer.fitnessOfError
  split
  · rw [isNaN_neg]
    exact isNaN_of_isFinite ‹_›
  · decide +kernel

/-- **The fitness of a program is defined.** -/
theorem Program.isNaN_fitnessOn (p : Program) (cases : List FitnessCase)
    (constants : Array Float) : (p.fitnessOn cases constants).isNaN = false :=
  Scorer.isNaN_fitnessOfError _

/-! ## Slots of greatest fitness -/

/-- No fitness is undefined. -/
def Ranked (fitness : Array Float) : Prop := ∀ (i : Nat) (h : i < fitness.size),
  fitness[i].isNaN = false

/-- No slot has a greater fitness. -/
def IsBest (fitness : Array Float) (slot : Nat) : Prop :=
  ∃ h : slot < fitness.size, ∀ (j : Nat) (hj : j < fitness.size), fitness[j] ≤ fitness[slot]

variable {fitness : Array Float}

/-- A best slot is one of greatest rank. -/
lemma isBest_iff (hranked : Ranked fitness) {slot : Nat} :
    IsBest fitness slot ↔ ∃ h : slot < fitness.size,
      ∀ (j : Nat) (hj : j < fitness.size), rank fitness[j] ≤ rank fitness[slot] := by
  constructor
  · rintro ⟨h, hle⟩
    exact ⟨h, fun j hj => (le_iff_rank_le (hranked j hj) (hranked slot h)).mp (hle j hj)⟩
  · rintro ⟨h, hle⟩
    exact ⟨h, fun j hj => (le_iff_rank_le (hranked j hj) (hranked slot h)).mpr (hle j hj)⟩

/-- The contest of all slots gives a slot. -/
theorem bestSlot_lt (hsize : 0 < fitness.size) : bestSlot fitness < fitness.size := by
  have hne : List.range fitness.size ≠ [] := by
    rw [Ne, List.range_eq_nil]
    omega
  exact List.mem_range.mp (winner_mem fitter fitness hne)

/-- No slot has an undefined fitness, nor is what stands in for a missing one undefined. -/
theorem Ranked.isNaN_getD (hranked : Ranked fitness) (i : Nat) :
    (fitness.getD i 0.0).isNaN = false := by
  rw [Array.getD]
  split
  · exact hranked i ‹_›
  · rfl

/-- A contest for the greatest fitness is decided by ranks. -/
theorem Ranked.decidedBy_fitter (hranked : Ranked fitness) (slots : List Nat) :
    DecidedBy fitter fitness (fun i => rank (fitness.getD i 0.0)) slots := by
  intro i _ j _
  rw [fitter, decide_eq_true_eq]
  exact lt_iff_rank_lt (hranked.isNaN_getD i) (hranked.isNaN_getD j)

/-- **The contest of all slots finds a best slot.** -/
theorem isBest_bestSlot (hranked : Ranked fitness) (hsize : 0 < fitness.size) :
    IsBest fitness (bestSlot fitness) := by
  have hlt := bestSlot_lt hsize
  have hfirst := isFirstGreatest_winner (hranked.decidedBy_fitter (List.range fitness.size))
    (by simpa using Nat.ne_of_gt hsize)
  refine (isBest_iff hranked).mpr ⟨hlt, ?_⟩
  intro j hj
  have hle : rank (fitness.getD j 0.0) ≤ rank (fitness.getD (bestSlot fitness) 0.0) :=
    hfirst.le j (List.mem_range.mpr hj)
  simpa only [Array.getD_eq_getD_getElem?, Array.getElem?_eq_getElem hj,
    Array.getElem?_eq_getElem hlt, Option.getD_some] using hle

/-! ## One slot changes -/

variable {slot best : Nat} {x : Float}

/-- A change to a fitness that is defined leaves all fitness defined. -/
theorem Ranked.set (hranked : Ranked fitness) (hx : x.isNaN = false) :
    Ranked (fitness.setIfInBounds slot x) := by
  intro i hi
  rw [Array.size_setIfInBounds] at hi
  rw [Array.getElem_setIfInBounds hi]
  split
  · exact hx
  · exact hranked i hi

/-- The rank of each slot after the change of one. -/
lemma rank_set {i : Nat} (hi' : i < (fitness.setIfInBounds slot x).size) (hi : i < fitness.size) :
    rank (fitness.setIfInBounds slot x)[i] = if slot = i then rank x else rank fitness[i] := by
  rw [Array.getElem_setIfInBounds hi]
  exact apply_ite rank _ _ _

/-- The best slot is still the best when another one gets a fitness that is not greater. -/
theorem IsBest.set_of_not_lt (hbest : IsBest fitness best) (hranked : Ranked fitness)
    (hx : x.isNaN = false) (hslot : slot ≠ best)
    (hlt : best < fitness.size) (h : ¬ fitness[best] < x) :
    IsBest (fitness.setIfInBounds slot x) best := by
  obtain ⟨_, hle⟩ := (isBest_iff hranked).mp hbest
  have hx' : rank x ≤ rank fitness[best] :=
    not_lt.mp fun hrank => h ((lt_iff_rank_lt (hranked best hlt) hx).mpr hrank)
  refine (isBest_iff (hranked.set hx)).mpr ⟨by simpa using hlt, ?_⟩
  intro j hj
  have hj' : j < fitness.size := by simpa using hj
  rw [rank_set _ hlt, if_neg hslot, rank_set hj hj']
  split
  · exact hx'
  · exact hle j hj'

/-- A slot that gets a greater fitness than the best one is the best from then on. -/
theorem IsBest.set_of_lt (hbest : IsBest fitness best) (hranked : Ranked fitness)
    (hx : x.isNaN = false) (hslot : slot < fitness.size)
    (hlt : best < fitness.size) (h : fitness[best] < x) :
    IsBest (fitness.setIfInBounds slot x) slot := by
  obtain ⟨_, hle⟩ := (isBest_iff hranked).mp hbest
  have hx' : rank fitness[best] < rank x := (lt_iff_rank_lt (hranked best hlt) hx).mp h
  refine (isBest_iff (hranked.set hx)).mpr ⟨by simpa using hslot, ?_⟩
  intro j hj
  have hj' : j < fitness.size := by simpa using hj
  rw [rank_set _ hslot, if_pos rfl, rank_set hj hj']
  split
  · exact le_refl _
  · exact le_trans (hle j hj') (le_of_lt hx')

/-- The best slot is still the best when it gets a fitness that is not smaller. -/
theorem IsBest.set_self (hbest : IsBest fitness best) (hranked : Ranked fitness)
    (hx : x.isNaN = false) (hlt : best < fitness.size) (h : ¬ x < fitness[best]) :
    IsBest (fitness.setIfInBounds best x) best := by
  obtain ⟨_, hle⟩ := (isBest_iff hranked).mp hbest
  have hx' : rank fitness[best] ≤ rank x :=
    not_lt.mp fun hrank => h ((lt_iff_rank_lt hx (hranked best hlt)).mpr hrank)
  refine (isBest_iff (hranked.set hx)).mpr ⟨by simpa using hlt, ?_⟩
  intro j hj
  have hj' : j < fitness.size := by simpa using hj
  rw [rank_set _ hlt, if_pos rfl, rank_set hj hj']
  split
  · exact le_refl _
  · exact le_trans (hle j hj') hx'

end SymbolicRegression
