import Mathlib.Order.Bounds.Basic
import SymbolicRegression.Proofs.Breeding.Contest
import SymbolicRegression.Proofs.Evolution.Lifecycle

set_option autoImplicit false
set_option relaxedAutoImplicit false

/-!
# One slot changes in a step

A step touches no slot but the one that its negative tournament has drawn, and this one keeps what
it has or gets the child with the child's own fitness. The greatest fitness of the population can
be lost in a step only without elitism, and only if the tournament has drawn nothing but the best
slot: any other slot of that fitness stays, and any other entrant is less fit.

## Main definitions

* `SymbolicRegression.Population.SameAt` — populations that agree in a slot.
* `SymbolicRegression.Population.values` — the fitness values of a population.

## Main results

* `SymbolicRegression.Evolution.Settled.sameAt` — settling a child leaves the other slots alone.
* `SymbolicRegression.Evolution.Sound.of_lost` — how the greatest fitness is lost.
* `SymbolicRegression.Evolution.Reachable.step_changes_one_slot` — what a step changes.
-/

namespace SymbolicRegression

namespace Population

/-- The populations have one program and one fitness in a slot. -/
def SameAt (pop pop' : Population) (slot : Nat) : Prop :=
  pop'.program slot = pop.program slot ∧ pop'.fitnessOf slot = pop.fitnessOf slot

/-- The fitness values of the slots. -/
def values (pop : Population) : Set Float := {x | ∃ slot, pop.fitnessOf slot = .ok x}

end Population

namespace Evolution

variable {σ : Type} {e e' : Evolution σ} {child : Program} {x b b' : Float} {slot : Nat}

/-! ## The slot of the child -/

namespace Settled

/-- Settling a child leaves the population alone or puts the child into the slot. -/
theorem population_eq (h : Settled e child x slot e') :
    e'.population = e.population ∨
      slot < e.population.size ∧ e'.population = e.population.put slot child x := by
  have hlt : e.best < e.population.fitness.size → e.best < e.population.size :=
    fun hbest => lt_of_lt_of_eq hbest e.population.size_fitness
  cases h with
  | refused => exact .inl rfl
  | rescanned hbest => exact .inr ⟨hlt hbest, rfl⟩
  | kept hbest => exact .inr ⟨hlt hbest, rfl⟩
  | improved _ hslot => exact .inr ⟨hslot, rfl⟩
  | unimproved _ hslot => exact .inr ⟨hslot, rfl⟩

/-- Settling a child takes no words. -/
theorem supply_eq (h : Settled e child x slot e') : e'.supply = e.supply := by
  cases h <;> rfl

/-- **Settling a child leaves the other slots alone.** -/
theorem sameAt (h : Settled e child x slot e') {i : Nat} (hi : i ≠ slot) :
    e.population.SameAt e'.population i := by
  rcases h.population_eq with heq | ⟨hslot, heq⟩
  · rw [heq]
    exact ⟨rfl, rfl⟩
  · rw [heq, Population.SameAt, Population.program_put hslot, Population.fitnessOf_put hslot,
      if_neg hi.symm, if_neg hi.symm]
    exact ⟨rfl, rfl⟩

/-- The slot keeps what it has or gets the child with its fitness. -/
theorem sameAt_or_child (h : Settled e child x slot e') :
    e.population.SameAt e'.population slot ∨
      e'.population.program slot = .ok child ∧ e'.population.fitnessOf slot = .ok x := by
  rcases h.population_eq with heq | ⟨hslot, heq⟩
  · rw [heq]
    exact .inl ⟨rfl, rfl⟩
  · rw [heq, Population.program_put hslot, Population.fitnessOf_put hslot, if_pos rfl, if_pos rfl]
    exact .inr ⟨rfl, rfl⟩

end Settled

/-! ## The greatest fitness -/

variable {settings : Settings} {problem : Problem}

/-- No fitness in a sound run is undefined. -/
theorem Sound.isNaN_of_mem_values (h : e.Sound settings problem) (hx : x ∈ e.population.values) :
    x.isNaN = false := by
  obtain ⟨i, hi⟩ := hx
  obtain ⟨hlt, rfl⟩ := Population.fitnessOf_eq_ok_iff.mp hi
  exact h.ranked i hlt

/-- The best slot of a sound run has the greatest fitness. -/
theorem Sound.exists_isGreatest (h : e.Sound settings problem) :
    ∃ b, e.population.fitnessOf e.best = .ok b ∧ IsGreatest e.population.values b := by
  obtain ⟨b, hb, hdefined⟩ := h.exists_best
  refine ⟨b, hb, ⟨_, hb⟩, ?_⟩
  rintro y ⟨i, hi⟩
  obtain ⟨hlt, rfl⟩ := Population.fitnessOf_eq_ok_iff.mp hi
  exact (le_iff_rank_le (h.ranked i hlt) hdefined).mpr ((h.rank_le_best hb).2 i hlt)

/-- **How the greatest fitness is lost.** A worse child has taken the best slot, without elitism,
and no other slot has had a fitness as great.

**Proof sketch.** Any slot but that of the child still has its fitness, so this has been less than
the greatest. The best slot is therefore that of the child. It has not refused the child, and the
child is worse. -/
theorem Sound.of_lost (h : e.Sound settings problem) (h' : e'.Sound settings problem)
    (hsettled : Settled e child x slot e') (hx : x.isNaN = false)
    (hb : IsGreatest e.population.values b) (hb' : IsGreatest e'.population.values b')
    (hlt : b' < b) :
    slot = e.best ∧ e.population.fitnessOf slot = .ok b ∧ e.settings.elitism = false ∧ x < b ∧
      ∀ i y, e.population.fitnessOf i = .ok y → rank b ≤ rank y → i = slot := by
  have hdefined := h.isNaN_of_mem_values hb.1
  have hlost : ∀ y ∈ e'.population.values, rank y < rank b := by
    intro y hy
    have hdefined' := h'.isNaN_of_mem_values hb'.1
    calc rank y ≤ rank b' := (le_iff_rank_le (h'.isNaN_of_mem_values hy) hdefined').mp (hb'.2 hy)
      _ < rank b := (lt_iff_rank_lt hdefined' hdefined).mp hlt
  have hunique : ∀ i y, e.population.fitnessOf i = .ok y → rank b ≤ rank y → i = slot := by
    intro i y hy hle
    by_contra hi
    exact absurd (hlost y ⟨i, (hsettled.sameAt hi).2.trans hy⟩) (not_lt.mpr hle)
  -- the best slot ranks with the greatest fitness, so it is that of the child and has just this one
  obtain ⟨y, hy, hgreatest⟩ := h.exists_isGreatest
  have hle : rank b ≤ rank y :=
    (le_iff_rank_le hdefined (h.isNaN_of_mem_values ⟨_, hy⟩)).mp (hgreatest.2 hb.1)
  have hbest : e.best = slot := hunique _ y hy hle
  obtain ⟨i, hi⟩ := hb.1
  obtain rfl : i = slot := hunique i b hi le_rfl
  have hget : ∀ hlt : e.best < e.population.fitness.size, e.population.fitness[e.best] = b :=
    fun hlt => Except.ok.inj ((Population.fitnessOf_eq hlt).symm.trans (hbest ▸ hi))
  cases hsettled with
  | refused => exact absurd (hlost b ⟨_, hi⟩) (lt_irrefl _)
  | rescanned hlt helitism hworse => exact ⟨rfl, hi, helitism, hget hlt ▸ hworse, hunique⟩
  | kept hlt hnotWorse =>
    have hslot : e.best < e.population.size := lt_of_lt_of_eq hlt e.population.size_fitness
    have hchild : (e.population.put e.best child x).fitnessOf e.best = .ok x := by
      rw [Population.fitnessOf_put hslot, if_pos rfl]
    rw [hget hlt, lt_iff_rank_lt hx hdefined] at hnotWorse
    exact absurd (hlost x ⟨_, hchild⟩) hnotWorse
  | improved _ _ hne => exact absurd hbest.symm hne
  | unimproved _ _ hne => exact absurd hbest.symm hne

/-! ## Steps -/

variable [WordSource σ] {supply : Supply σ}

/-- The slots that a negative tournament has drawn in a sound run: they are no less fit than the
slot that it has chosen. -/
theorem Sound.negativeTournament_eq_ok (h : e.Sound settings problem) {rounds : Nat}
    {supply supply' : Supply σ}
    (hlose : (negativeTournament e.population.fitness rounds).run supply = .ok (slot, supply')) :
    ∃ draws, draws.length = max rounds 1 ∧ Draw.Drawn e.population.size supply draws supply' ∧
      slot ∈ draws ∧ ∀ z, e.population.fitnessOf slot = .ok z → ∀ d ∈ draws,
        ∃ y, e.population.fitnessOf d = .ok y ∧ rank z ≤ rank y := by
  have hsize : 0 < e.population.fitness.size := Nat.zero_lt_of_lt h.best_lt
  obtain ⟨draws, hlength, hdrawn, hslots, hfirst⟩ :=
    contest_eq_ok h.ranked.decidedBy_lessFit hsize hlose
  have hle := hfirst.le
  obtain ⟨before, after, rfl, -, -⟩ := hfirst
  have hdrawn' : Draw.Drawn e.population.size supply (before ++ slot :: after) supply' := by
    rw [Population.size, ← e.population.size_fitness]
    exact hdrawn
  refine ⟨_, hlength, hdrawn', by simp, fun z hz d hd => ?_⟩
  obtain ⟨hslot, rfl⟩ := Population.fitnessOf_eq_ok_iff.mp hz
  refine ⟨_, Population.fitnessOf_eq (hslots d hd), ?_⟩
  have hrank := neg_le_neg_iff.mp (hle d hd)
  simpa [Array.getD, hslot, hslots d hd] using hrank

/-- **One slot changes in a step, and the best is lost through ties only.** From every reachable run
a step can only lack words. If it has them, it breeds a child and draws slots for a negative
tournament over the fitness as it stands. All slots but the one that this chooses keep their program
and their fitness, and the chosen one keeps both or gets the child and the child's own fitness. The
greatest fitness gets less only without elitism and if the child is worse than it, and if the best
slot is the first that has been drawn and all the others that have been drawn are as fit, which
means that they are the best slot again. -/
theorem Reachable.step_changes_one_slot {text : String} (hread : Problem.read text = .ok problem)
    (h : Reachable settings problem supply e) :
    (∀ fault, e.step = .error fault → fault = .supplyExhausted) ∧
      ∀ e', e.step = .ok e' → ∃ child x supply₁ draws slot,
        (breed e.settings e.problem.terminalCount e.population).run e.supply =
          .ok (child, supply₁) ∧
        (∃ s, (Scorer.fresh problem.cases e.bindings).score child = .ok (x, s)) ∧
        draws.length = settings.tournamentSize ∧
        Draw.Drawn e.population.size supply₁ draws e'.supply ∧
        (negativeTournament e.population.fitness settings.tournamentSize).run supply₁ =
          .ok (slot, e'.supply) ∧
        (∀ i, i ≠ slot → e.population.SameAt e'.population i) ∧
        (e.population.SameAt e'.population slot ∨
          e'.population.program slot = .ok child ∧ e'.population.fitnessOf slot = .ok x) ∧
        (∃ b, IsGreatest e.population.values b) ∧ (∃ b', IsGreatest e'.population.values b') ∧
        ∀ b b', IsGreatest e.population.values b → IsGreatest e'.population.values b' → b' < b →
          settings.elitism = false ∧ x < b ∧ draws.head? = some e.best ∧
            ∀ d ∈ draws, d = e.best ∧ e.population.fitnessOf d = .ok b := by
  obtain ⟨haccepted, hsound⟩ := h.sound hread
  have hspec := hsound.step_spec haccepted
  refine ⟨fun fault hfault => hspec.of_eq_error hfault, fun e' hstep => ?_⟩
  obtain ⟨child, supply₁, scorer, slot, supply₂, hbreed, -, -, hcases, hlayout, hlose, hsettled⟩ :=
    hspec.of_eq_ok hstep
  have hsound' : e'.Sound settings problem := (hsound.step haccepted).of_eq_ok hstep
  have hscored := hsound.scored supply₂ hcases hlayout
  rw [hsound.settings_eq] at hlose
  obtain ⟨draws, hlength, hdrawn, hslot, hdraws⟩ := hsound.negativeTournament_eq_ok hlose
  have hrounds := (Settings.of_check h.check_eq_ok).tournamentSize_pos
  rw [max_eq_left hrounds] at hlength
  have hsupply : e'.supply = supply₂ := hsettled.supply_eq
  obtain ⟨s, hscore, -, -⟩ := (Scorer.fresh problem.cases e.bindings).score_eq child
    (hsound.varCount_eq ▸ haccepted.runnable.size_inputs)
  obtain ⟨b₀, -, hb₀⟩ := hsound.exists_isGreatest
  obtain ⟨b₁, -, hb₁⟩ := hsound'.exists_isGreatest
  refine ⟨child, _, supply₁, draws, slot, hbreed, ⟨s, hscore⟩, hlength, hsupply ▸ hdrawn,
    hsupply ▸ hlose, fun i hi => hsettled.sameAt hi, hsettled.sameAt_or_child, ⟨b₀, hb₀⟩,
    ⟨b₁, hb₁⟩, fun b b' hb hb' hlt => ?_⟩
  obtain ⟨rfl, hfitness, helitism, hworse, hunique⟩ :=
    hscored.of_lost hsound' hsettled (Program.isNaN_fitnessOn _ _ _) hb hb' hlt
  have hall : ∀ d ∈ draws, d = e.best := by
    intro d hd
    obtain ⟨y, hy, hle⟩ := hdraws b hfitness d hd
    exact hunique d y hy hle
  refine ⟨hsound.settings_eq ▸ helitism, hworse, ?_, fun d hd => ⟨hall d hd, ?_⟩⟩
  · cases draws with
    | nil => cases hslot
    | cons first rest => rw [List.head?_cons, hall first (by simp)]
  · rw [hall d hd]
    exact hfitness

set_option maxRecDepth 10000 in
/-- A small run without elitism, of two slots: in its first step a tournament of two draws comes to
the best slot twice, and the greatest fitness gets less. -/
theorem step_changes_one_slot_sample :
    let settings := { Sample.settings with
      depth := 2, crossoverProbability := 1.0, elitism := false }
    ∃ problem e e' b b' supply, Problem.read Sample.text = .ok problem ∧
      Reachable settings problem Sample.supply e ∧ e.step = .ok e' ∧
      IsGreatest e.population.values b ∧ IsGreatest e'.population.values b' ∧ b' < b ∧
      Draw.Drawn e.population.size supply [e.best, e.best] e'.supply := by
  intro settings
  obtain ⟨problem, _, e, hread, hstart, hcalls, htest⟩ := Sample.exists_called settings 0
    (fun e => match e.population.fitnessOf e.best, e.step with
      | .ok b, .ok e' => match e'.population.fitnessOf e'.best with
        | .ok b' => decide (b' < b)
        | .error _ => false
      | _, _ => false) (by decide +kernel)
  have hreachable : Reachable settings problem Sample.supply e :=
    .rested ((Rested.start hstart).advances hcalls)
  obtain ⟨haccepted, hsound⟩ := hreachable.sound hread
  obtain ⟨b, hb, hgreatest⟩ := hsound.exists_isGreatest
  simp only [hb] at htest
  cases hstep : e.step with
  | error fault => simp [hstep] at htest
  | ok e' =>
    obtain ⟨b', hb', hgreatest'⟩ := ((hsound.step haccepted).of_eq_ok hstep).exists_isGreatest
    simp only [hstep, hb', decide_eq_true_eq] at htest
    obtain ⟨-, hchanges⟩ := Reachable.step_changes_one_slot hread hreachable
    obtain ⟨child, x, supply, draws, slot, -, -, hlength, hdrawn, -, -, -, -, -, hlost⟩ :=
      hchanges e' hstep
    obtain ⟨-, -, -, hall⟩ := hlost b b' hgreatest hgreatest' htest
    obtain rfl : draws = [e.best, e.best] :=
      List.eq_replicate_iff.mpr ⟨hlength, fun d hd => (hall d hd).1⟩
    exact ⟨problem, e, e', b, b', supply, hread, hreachable, hstep, hgreatest, hgreatest', htest,
      hdrawn⟩

end Evolution

end SymbolicRegression
