import SymbolicRegression.Proofs.Evolution.Recovery
import SymbolicRegression.Proofs.Evolution.Safety
import SymbolicRegression.Proofs.Fitness.Extremes

set_option autoImplicit false
set_option relaxedAutoImplicit false

/-!
# Records of generations

A record takes the greatest and the least fitness from the population as a whole and the best slot
from the run, which keeps track of it from step to step. Both agree to the bit, although there may
be several slots of greatest fitness, because fitness of one rank is the same number. The history
of a run holds, for each generation, the record of the population that stood at its end, and
nothing that happens later touches it.

## Main definitions

* `SymbolicRegression.GenerationRecord.Describes` — a record is of a population.

## Main results

* `SymbolicRegression.Evolution.Sound.describes` — the record that a run makes of its population.
* `SymbolicRegression.Evolution.Rested.exists_generation` — the end of each generation of a run.
* `SymbolicRegression.Evolution.Rested.history_faithful` — what a history holds, and that it stays.
-/

namespace SymbolicRegression

/-- The record tells of the population: of its greatest fitness and a slot that has it, of its least
fitness, and of the size of its programs. -/
structure GenerationRecord.Describes (r : GenerationRecord) (pop : Population) : Prop where
  /-- The slot that is named has the best fitness, to the bit. -/
  best : pop.fitnessOf r.bestIndex = .ok r.bestFitness
  /-- No slot has a greater fitness. -/
  le_best : ∀ slot x, pop.fitnessOf slot = .ok x → x ≤ r.bestFitness
  /-- A slot has the worst fitness, to the bit. -/
  worst : ∃ slot, pop.fitnessOf slot = .ok r.worstFitness
  /-- No slot has a smaller fitness. -/
  worst_le : ∀ slot x, pop.fitnessOf slot = .ok x → r.worstFitness ≤ x
  /-- Every program has as many nodes as opcodes. -/
  nodeCount_eq : ∀ p ∈ pop.programs, p.nodeCount = p.length
  /-- The mean size is what the lengths add up to, shared among all slots. -/
  meanSize_eq : r.meanSize =
    Float.ofNat (pop.programs.toList.map Program.length).sum / Float.ofNat pop.size

namespace Evolution

variable {σ : Type} {settings : Settings} {problem : Problem} {e : Evolution σ}

namespace Sound

/-- The fitness in a slot of a sound run is a deficit. -/
theorem isDeficit (h : e.Sound settings problem) {slot : Nat} {x : Float}
    (hx : e.population.fitnessOf slot = .ok x) : IsDeficit x := by
  obtain ⟨p, -, -, rfl⟩ := h.exists_program hx
  exact p.isDeficit_fitnessOn _ _

/-- The programs of a sound run are formulas. -/
theorem isComplete_of_mem (h : e.Sound settings problem) {p : Program}
    (hp : p ∈ e.population.programs) : p.IsComplete := by
  obtain ⟨i, hi, rfl⟩ := Array.mem_iff_getElem.mp hp
  exact (h.fits i hi).1

/-- **The best slot has the best fitness of the record**, to the bit. -/
theorem fitnessOf_best (h : e.Sound settings problem) :
    e.population.fitnessOf e.best = .ok e.currentRecord.bestFitness := by
  obtain ⟨x, hx, -⟩ := h.exists_best
  have hrank := (h.rank_bestFitness hx).2
  rw [hx, (h.isDeficit h.fitnessOf_bestSlot).eq_of_rank_eq (h.isDeficit hx) hrank]

/-- No fitness of a sound run ranks with positive infinity. -/
theorem rank_lt_infinity (h : e.Sound settings problem) {slot : Nat} {x : Float}
    (hx : e.population.fitnessOf slot = .ok x) : rank x < rank (1.0 / 0.0) := by
  obtain ⟨p, -, -, rfl⟩ := h.exists_program hx
  have hzero : (0.0 : Float).isNaN = false := by rfl
  have hle := (le_iff_rank_le (p.isNaN_fitnessOn _ _) hzero).mp
    (p.fitnessOn_le_zero problem.cases e.bindings.constants)
  exact hle.trans_lt (by decide +kernel)

/-- The worst fitness of the record is the least number that is met among the fitness of the slots,
from positive infinity on. -/
theorem worstFitness_eq (h : e.Sound settings problem) : e.currentRecord.worstFitness =
    e.population.fitness.toList.foldl lesser (1.0 / 0.0) := by
  have hne : e.population.fitness ≠ #[] :=
    Array.size_pos_iff.mp (Nat.zero_lt_of_lt h.best_lt)
  simp [currentRecord, Population.summary, Summary.ofFitness, hne]

/-- **The worst fitness of the record is the least one of a slot.** -/
theorem worstFitness_spec (h : e.Sound settings problem) :
    (∃ slot, e.population.fitnessOf slot = .ok e.currentRecord.worstFitness) ∧
      ∀ slot x, e.population.fitnessOf slot = .ok x → e.currentRecord.worstFitness ≤ x := by
  rw [h.worstFitness_eq]
  have hdefined : ∀ x ∈ e.population.fitness.toList, x.isNaN = false := by
    intro x hx
    obtain ⟨slot, hslot⟩ := Population.exists_fitnessOf_iff.mpr (Array.mem_toList_iff.mp hx)
    obtain ⟨p, -, -, rfl⟩ := h.exists_program hslot
    exact p.isNaN_fitnessOn _ _
  have hslot {slot : Nat} {x : Float} (hx : e.population.fitnessOf slot = .ok x) :
      x ∈ e.population.fitness.toList :=
    Array.mem_toList_iff.mpr (Population.exists_fitnessOf_iff.mp ⟨slot, hx⟩)
  have hinfinity : (1.0 / 0.0 : Float).isNaN = false := by rfl
  obtain ⟨-, hle⟩ := foldl_lesser_le hinfinity hdefined
  have hmem : e.population.fitness.toList.foldl lesser (1.0 / 0.0) ∈
      e.population.fitness.toList := by
    refine (foldl_lesser_mem _ _).resolve_left fun heq => ?_
    -- the search starts above every fitness, so it meets a smaller one
    obtain ⟨x, hx, -⟩ := h.exists_best
    have hbest := hle x (hslot hx)
    rw [heq] at hbest
    exact absurd hbest (h.rank_lt_infinity hx).not_ge
  refine ⟨Population.exists_fitnessOf_iff.mpr (Array.mem_toList_iff.mp hmem), ?_⟩
  intro slot x hx
  rw [le_iff_rank_le (hdefined _ hmem) (hdefined _ (hslot hx))]
  exact hle x (hslot hx)

/-- The mean size of the record is the mean length. -/
theorem meanSize_eq (h : e.Sound settings problem) : e.currentRecord.meanSize =
    Float.ofNat (e.population.programs.toList.map Program.length).sum /
      Float.ofNat e.population.size := by
  have hsum := Program.foldl_nodeCount
    (fun p hp => h.isComplete_of_mem (Array.mem_toList_iff.mp hp)) 0
  rw [Nat.zero_add, Array.foldl_toList] at hsum
  show Float.ofNat _ / _ = _
  rw [hsum]

/-- **The record of a sound run is of its population.** -/
theorem describes (h : e.Sound settings problem) : e.currentRecord.Describes e.population := by
  obtain ⟨hworst, hworst_le⟩ := h.worstFitness_spec
  obtain ⟨hdefined, hle⟩ := h.rank_le_best h.fitnessOf_best
  exact
    { best := h.fitnessOf_best
      le_best := by
        intro slot x hx
        obtain ⟨hlt, rfl⟩ := Population.fitnessOf_eq_ok_iff.mp hx
        exact (le_iff_rank_le (h.ranked slot hlt) hdefined).mpr (hle slot hlt)
      worst := hworst
      worst_le := hworst_le
      nodeCount_eq := fun p hp => (h.isComplete_of_mem hp).nodeCount_eq
      meanSize_eq := h.meanSize_eq }

end Sound

/-! ## The history of a run -/

variable [WordSource σ] {supply : Supply σ} {text : String}

/-- **Each generation of a run has its end**: as many calls lead to it from the start, and the
record of what stood there is in the history. -/
theorem Rested.exists_generation (hread : Problem.read text = .ok problem)
    (h : Rested settings problem supply e) {e₀ : Evolution σ}
    (hstart : Evolution.start settings problem supply = .ok e₀) {g : Nat} (hg : g ≤ e.generation) :
    ∃ s, Evolution.advances g e₀ = .ok s ∧ s.generation = g ∧
      e.history[g]? = some s.currentRecord := by
  obtain ⟨e₁, events, last, hstart', hmakes, hlength, heq, -⟩ := h.exists_makes hread
  obtain rfl := Except.ok.inj (hstart.symm.trans hstart')
  -- the first `g` of the generations that lead to the run, and the others
  rw [← List.take_append_drop g events] at hmakes
  obtain ⟨s, hfirst, hrest⟩ := hmakes.of_append
  have hcount : (events.take g).length = g := by
    rw [List.length_take]
    omega
  have hcalls : Evolution.advances g e₀ = .ok s := hcount ▸ hfirst.advances
  have hgeneration : s.generation = g := by
    obtain ⟨_, _, _, rfl⟩ := exists_start_eq hstart
    rw [hfirst.generation_eq, hcount]
    exact Nat.zero_add g
  have hrecord := (((Rested.start hstart).advances hcalls).orderly hread).getElem?_history
  rw [hgeneration] at hrecord
  refine ⟨s, hcalls, hgeneration, ?_⟩
  rw [heq]
  exact getElem?_history_of_prefix (history_of_advances hrest.advances) hrecord

/-- A run with reports only adds to the history. -/
theorem history_of_run {ω : Type} (reporter : Reporter ω) (out : ω) :
    e.history.toList <+: (e.run reporter out).2.1.history.toList :=
  run_keeps (P := fun e' => e.history.toList <+: e'.history.toList)
    (fun _ _ _ hkept hadvance => hkept.trans (history_of_advance hadvance)) List.prefix_rfl
    reporter out

/-- **Histories are faithful.** The history of a run between two calls has a record for each
generation up to the present one. It is numbered by the generation and is of the population that
stood at its end, which as many calls lead to from the start: its best fitness is the greatest one,
to the bit that of the slot that the run had as its best one then; its worst fitness is the least
one, to the bit that of some slot; and its mean size is the mean length of the programs, which is
what counting the nodes of each comes to. The steps of a generation leave the history as it is, and
calls and runs with reports, however they end, leave every record of it in its place. -/
theorem Rested.history_faithful (hread : Problem.read text = .ok problem)
    (h : Rested settings problem supply e) :
    e.history.size = e.generation + 1 ∧
      (∃ e₀, Evolution.start settings problem supply = .ok e₀ ∧ ∀ g, g ≤ e.generation →
        ∃ s r, Evolution.advances g e₀ = .ok s ∧ s.generation = g ∧ e.history[g]? = some r ∧
          r.generation = g ∧ r.bestIndex = s.best ∧ r.Describes s.population) ∧
      (∀ n e', steps n { e with phase := .running, generation := e.generation + 1 } = .ok e' →
        e'.history = e.history) ∧
      ∀ (g : Nat) (r : GenerationRecord), e.history[g]? = some r →
        (∀ n e', Evolution.advances n e = .ok e' → e'.history[g]? = some r) ∧
        ∀ (ω : Type) (reporter : Reporter ω) (out : ω),
          (e.run reporter out).2.1.history[g]? = some r := by
  refine ⟨(h.orderly hread).size_history, ?_, ?_, ?_⟩
  · obtain ⟨e₀, -, hstart, -⟩ := h.exists_advances
    refine ⟨e₀, hstart, ?_⟩
    intro g hg
    obtain ⟨s, hcalls, hgeneration, hrecord⟩ := h.exists_generation hread hstart hg
    have hsound := ((Rested.start hstart).advances hcalls).sound hread
    exact ⟨s, s.currentRecord, hcalls, hgeneration, hrecord, hgeneration, rfl, hsound.describes⟩
  · intro n e' hsteps
    exact (steps_bookkeeping hsteps).2.2
  · intro g r hr
    refine ⟨fun n e' hcalls => ?_, fun ω reporter out => ?_⟩
    · exact getElem?_history_of_prefix (history_of_advances hcalls) hr
    · exact getElem?_history_of_prefix (history_of_run reporter out) hr

set_option maxRecDepth 10000 in
/-- The small run has two records when it has made its only generation, and another call leaves the
first of them in its place. -/
theorem history_faithful_sample : ∃ problem e₀ e s r,
    Problem.read Sample.text = .ok problem ∧
      Evolution.start Sample.settings problem Sample.supply = .ok e₀ ∧
      Evolution.advances 1 e₀ = .ok e ∧ e.history.size = 2 ∧ e.generation = 1 ∧
      Evolution.advances 0 e₀ = .ok s ∧ e.history[0]? = some r ∧ r.bestIndex = s.best ∧
      r.Describes s.population ∧ (e.run Sample.silent ()).2.1.history[0]? = some r := by
  obtain ⟨problem, e₀, e, hread, hstart, hcalls, hone⟩ :=
    Sample.exists_called Sample.settings 1 (fun e => e.generation == 1) (by decide +kernel)
  have hone : e.generation = 1 := by simpa using hone
  have hrested := (Rested.start hstart).advances hcalls
  obtain ⟨hsize, ⟨e₁, hstart', hgenerations⟩, -, hkept⟩ := Rested.history_faithful hread hrested
  obtain rfl := Except.ok.inj (hstart.symm.trans hstart')
  obtain ⟨s, r, hfirst, -, hr, -, hbest, hdescribes⟩ := hgenerations 0 (Nat.zero_le _)
  exact ⟨problem, e₀, e, s, r, hread, hstart, hcalls, by rw [hsize, hone], hone, hfirst, hr, hbest,
    hdescribes, (hkept 0 r hr).2 Unit Sample.silent ()⟩

end Evolution

end SymbolicRegression
