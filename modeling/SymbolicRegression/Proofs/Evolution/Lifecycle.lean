import SymbolicRegression.Proofs.Evolution.Calls

set_option autoImplicit false
set_option relaxedAutoImplicit false

/-!
# The life of a run

Between two calls the phase, the generation and the history of a run agree with its population:
there is one record for each generation, the last of them is of the population as it stands, and a
run that has ended has passed the threshold or made all its generations. A population that has
passed the threshold is never stepped, and every run comes to its end.

## Main definitions

* `SymbolicRegression.Evolution.Orderly` — the bookkeeping between two calls.

## Main results

* `SymbolicRegression.Evolution.Orderly.advance` — a call keeps the bookkeeping in order.
* `SymbolicRegression.Evolution.Rested.orderly` — the bookkeeping of a run between two calls.
* `SymbolicRegression.Evolution.Rested.lifecycle` — the phases of a run and what calls do in them.
-/

namespace SymbolicRegression

namespace Evolution

variable {σ : Type} {settings : Settings} {problem : Problem} {e : Evolution σ}

/-! ## The best fitness of a record -/

/-- The fitness of the best slot of a sound run is defined and ranks first. -/
theorem Sound.rank_le_best (h : e.Sound settings problem) {x : Float}
    (hx : e.population.fitnessOf e.best = .ok x) :
    x.isNaN = false ∧ ∀ (i : Nat) (hi : i < e.population.fitness.size),
      rank e.population.fitness[i] ≤ rank x := by
  obtain ⟨hlt, hle⟩ := (isBest_iff h.ranked).mp h.isBest
  obtain rfl := Except.ok.inj ((Population.fitnessOf_eq hlt).symm.trans hx)
  exact ⟨h.ranked _ hlt, hle⟩

/-- The best fitness in the record of a sound run is that of the first best slot. -/
theorem Sound.fitnessOf_bestSlot (h : e.Sound settings problem) :
    e.population.fitnessOf (bestSlot e.population.fitness) = .ok e.currentRecord.bestFitness := by
  have hsize : 0 < e.population.fitness.size := Nat.zero_lt_of_lt h.best_lt
  have hne : e.population.fitness ≠ #[] := Array.size_pos_iff.mp hsize
  have hlt := bestSlot_lt hsize
  rw [Population.fitnessOf_eq hlt]
  simp [currentRecord, Population.summary, Summary.ofFitness, hne, hlt]

/-- The best fitness in the record of a sound run is defined and ranks with the best slot. -/
theorem Sound.rank_bestFitness (h : e.Sound settings problem) {x : Float}
    (hx : e.population.fitnessOf e.best = .ok x) :
    e.currentRecord.bestFitness.isNaN = false ∧ rank e.currentRecord.bestFitness = rank x := by
  have hsize : 0 < e.population.fitness.size := Nat.zero_lt_of_lt h.best_lt
  obtain ⟨hlt, hle⟩ := (isBest_iff h.ranked).mp (isBest_bestSlot h.ranked hsize)
  rw [← Except.ok.inj ((Population.fitnessOf_eq hlt).symm.trans h.fitnessOf_bestSlot)]
  obtain rfl := Except.ok.inj ((Population.fitnessOf_eq h.best_lt).symm.trans hx)
  exact ⟨h.ranked _ hlt, le_antisymm ((h.rank_le_best hx).2 _ hlt) (hle _ h.best_lt)⟩

/-- The best fitness in the record of a sound run passes a threshold just if the best slot does. -/
theorem Sound.lt_bestFitness_iff (h : e.Sound settings problem) {x t : Float}
    (hx : e.population.fitnessOf e.best = .ok x) (ht : t.isNaN = false) :
    t < e.currentRecord.bestFitness ↔ t < x := by
  obtain ⟨hdefined, hrank⟩ := h.rank_bestFitness hx
  rw [lt_iff_rank_lt ht hdefined, lt_iff_rank_lt ht (h.rank_le_best hx).1, hrank]

/-! ## Going on -/

/-- A run goes on if it has not ended, its best fitness has not passed the threshold, and it has
generations left. -/
def GoesOn (settings : Settings) (e : Evolution σ) (best : Float) : Prop :=
  e.phase.isFinal = false ∧ ¬ settings.solvedThreshold < best ∧ e.generation < settings.generations

/-- The test for going on, in terms of what a call looks at. -/
theorem Sound.goesOn_iff (h : e.Sound settings problem) {x : Float}
    (hx : e.population.fitnessOf e.best = .ok x) :
    e.GoesOn settings x ↔ e.phase.isFinal = false ∧ e.isSolved = .ok false ∧
      e.generation < e.settings.generations := by
  rw [GoesOn, isSolved_eq hx, h.settings_eq]
  simp

/-! ## The bookkeeping -/

/-- A record in the history after the present generation is noted was there before, or is that of
the present generation. -/
theorem of_getElem?_record {i : Nat} {r : GenerationRecord} (h : e.record.history[i]? = some r) :
    i < e.history.size ∧ e.history[i]? = some r ∨ i = e.history.size ∧ r = e.currentRecord := by
  rw [Evolution.record, Array.getElem?_push] at h
  split at h
  · exact .inr ⟨‹_›, (Option.some.inj h).symm⟩
  · exact .inl ⟨(Array.getElem?_eq_some_iff.mp h).1, h⟩

/-- What holds of the phase, the generation and the history of a run between two calls. -/
structure Orderly (settings : Settings) (e : Evolution σ) : Prop where
  /-- There is a record for each generation. -/
  size_history : e.history.size = e.generation + 1
  /-- The records are numbered from zero. -/
  numbered : ∀ (i : Nat) (r : GenerationRecord), e.history[i]? = some r → r.generation = i
  /-- The last record is of the population as it stands. -/
  back_history : e.history.back? = some e.currentRecord
  /-- No more generations are made than allowed. -/
  generation_le : e.generation ≤ settings.generations
  /-- A run that has not been asked for a generation has made none. -/
  initial : e.phase = .initializing → e.generation = 0
  /-- A solved run has passed the threshold. -/
  solved : e.phase = .solved → e.isSolved = .ok true
  /-- An exhausted run has made all its generations and has not passed the threshold. -/
  exhausted : e.phase = .exhausted → e.isSolved = .ok false ∧ e.generation = settings.generations
  /-- No generation was made from a population that had passed the threshold. -/
  unsolved : ∀ (i : Nat) (r : GenerationRecord), i < e.generation → e.history[i]? = some r →
    ¬ settings.solvedThreshold < r.bestFitness

namespace Orderly

/-- The record of the present generation. -/
theorem getElem?_history (h : e.Orderly settings) :
    e.history[e.generation]? = some e.currentRecord := by
  have hback := h.back_history
  rwa [Array.back?, h.size_history, Nat.add_sub_cancel] at hback

/-- A run that has ended is solved just if its best fitness has passed the threshold. -/
theorem phase_eq_solved_iff (h : e.Orderly settings) (hsound : e.Sound settings problem)
    {x : Float} (hx : e.population.fitnessOf e.best = .ok x) (hfinal : e.phase.isFinal = true) :
    e.phase = .solved ↔ settings.solvedThreshold < x := by
  have hsolved := isSolved_eq hx
  rw [hsound.settings_eq] at hsolved
  cases hphase : e.phase with
  | initializing => simp [hphase, Phase.isFinal] at hfinal
  | running => simp [hphase, Phase.isFinal] at hfinal
  | solved => simpa [hsolved] using h.solved hphase
  | exhausted => simpa [hsolved] using (h.exhausted hphase).1

/-- The result of a run that has ended tells how it ended. -/
theorem result_of_isFinal (h : e.Orderly settings) (hsound : e.Sound settings problem)
    (hfinal : e.phase.isFinal = true) : ∃ r, e.result = .ok r ∧
      (r.outcome = .solved ↔ e.phase = .solved) ∧ r.generations = e.generation ∧
      r.history = e.history := by
  obtain ⟨x, hx, -⟩ := hsound.exists_best
  have hp := Population.program_eq (lt_of_lt_of_eq hsound.best_lt e.population.size_fitness)
  refine ⟨_, result_eq hp hx, ?_, rfl, rfl⟩
  rw [h.phase_eq_solved_iff hsound hx hfinal, hsound.settings_eq]
  split <;> simp [*]

variable [WordSource σ] {supply : Supply σ}

/-- The bookkeeping at the start. -/
theorem of_start (h : Evolution.start settings problem supply = .ok e) : e.Orderly settings := by
  obtain ⟨bindings, population, supply', rfl⟩ := exists_start_eq h
  refine ⟨rfl, ?_, rfl, Nat.zero_le _, fun _ => rfl, nofun, nofun, nofun⟩
  intro i r hr
  obtain ⟨hi, rfl⟩ := Array.getElem?_eq_some_iff.mp hr
  have hi' : i < 1 := hi
  obtain rfl : i = 0 := by omega
  rfl

omit [WordSource σ] in
/-- Noting one more generation keeps the bookkeeping in order, if the one before was not solved. -/
theorem record (h : e.Orderly settings) {e' : Evolution σ}
    (hgeneration : e'.generation = e.generation + 1) (hphase : e'.phase = .running)
    (hhistory : e'.history = e.history) (hleft : e.generation < settings.generations)
    (hunsolved : ¬ settings.solvedThreshold < e.currentRecord.bestFitness) :
    e'.record.Orderly settings := by
  have hpush : e'.record.history = e.history.push e'.currentRecord := by
    rw [Evolution.record, hhistory]
  have hget := @of_getElem?_record _ e'
  rw [hhistory, h.size_history] at hget
  refine ⟨?_, ?_, ?_, ?_, ?_, ?_, ?_, ?_⟩
  · rw [hpush, Array.size_push, h.size_history]
    exact congrArg (· + 1) hgeneration.symm
  · intro i r hr
    rcases hget hr with ⟨-, hr⟩ | ⟨rfl, rfl⟩
    · exact h.numbered i r hr
    · exact hgeneration
  · rw [hpush, Array.back?_push]
    rfl
  · show e'.generation ≤ _
    rw [hgeneration]
    exact hleft
  · intro hinitial
    cases hphase.symm.trans hinitial
  · intro hsolved
    cases hphase.symm.trans hsolved
  · intro hexhausted
    cases hphase.symm.trans hexhausted
  · intro i r hi hr
    have hi : i < e.generation + 1 := hgeneration ▸ hi
    rcases hget hr with ⟨-, hr⟩ | ⟨rfl, -⟩
    · rcases Nat.lt_succ_iff_lt_or_eq.mp hi with hi | rfl
      · exact h.unsolved i r hi hr
      · obtain rfl := Option.some.inj (hr.symm.trans h.getElem?_history)
        exact hunsolved
    · omega

/-- **A call keeps the bookkeeping in order.**

**Proof sketch.** Only a generation that is made adds a record. It is numbered by the generation
and it is of the population as it stands; the record before it is of a population that had not
passed the threshold, since that was tested. -/
theorem advance (h : e.Orderly settings) (hsound : e.Sound settings problem)
    (hthreshold : settings.solvedThreshold.isNaN = false) {record : Option GenerationRecord}
    {e' : Evolution σ} (hadvance : e.advance = .ok (record, e')) : e'.Orderly settings := by
  cases advance_cases hadvance with
  | ended => exact h
  | solved _ hsolved =>
    exact ⟨h.size_history, h.numbered, h.back_history, h.generation_le, nofun,
      fun _ => hsolved, nofun, h.unsolved⟩
  | exhausted _ hunsolved hdone =>
    have hall : e.generation = settings.generations :=
      le_antisymm h.generation_le (hsound.settings_eq ▸ hdone)
    exact ⟨h.size_history, h.numbered, h.back_history, h.generation_le, nofun, nofun,
      fun _ => ⟨hunsolved, hall⟩, h.unsolved⟩
  | @made e₁ _ hunsolved hleft hsteps =>
    obtain ⟨hgeneration, hphase, hhistory⟩ := steps_bookkeeping hsteps
    refine h.record hgeneration hphase hhistory (hsound.settings_eq ▸ hleft) ?_
    obtain ⟨x, hx, -⟩ := hsound.exists_best
    rw [hsound.lt_bestFitness_iff hx hthreshold]
    rw [isSolved_eq hx, hsound.settings_eq] at hunsolved
    simpa using hunsolved

end Orderly

variable [WordSource σ] {supply : Supply σ}

/-- The threshold of a run is defined. -/
theorem Rested.isNaN_solvedThreshold (h : Rested settings problem supply e) :
    settings.solvedThreshold.isNaN = false :=
  (Settings.of_check h.check_eq_ok).isNaN_solvedThreshold

/-- **The bookkeeping of a run between two calls is in order.** -/
theorem Rested.orderly {text : String} (hread : Problem.read text = .ok problem)
    (h : Rested settings problem supply e) : e.Orderly settings := by
  refine h.rec_advance (fun e hstart => .of_start hstart) ?_
  intro e record e' hrested horderly hadvance
  exact horderly.advance (hrested.sound hread)
    hrested.isNaN_solvedThreshold hadvance

/-! ## Calls -/

/-- A call that makes no generation leaves everything but the phase alone, and ends the run. -/
theorem of_advance_none {e' : Evolution σ} (h : e.advance = .ok (none, e')) :
    e' = { e with phase := e'.phase } ∧ e'.phase.isFinal = true := by
  cases advance_cases h with
  | ended hphase => exact ⟨rfl, hphase⟩
  | solved => exact ⟨rfl, rfl⟩
  | exhausted => exact ⟨rfl, rfl⟩

/-- A run that does not go on answers a call with nothing. -/
theorem Sound.advance_of_not_goesOn (h : e.Sound settings problem) {x : Float}
    (hx : e.population.fitnessOf e.best = .ok x) (hstops : ¬ e.GoesOn settings x) :
    ∃ e', e.advance = .ok (none, e') := by
  obtain rfl := h.settings_eq
  have hsolved := isSolved_eq hx
  cases hphase : e.phase.isFinal with
  | true => exact ⟨e, advance_of_isFinal hphase⟩
  | false =>
    by_cases hpassed : e.settings.solvedThreshold < x
    · rw [decide_eq_true hpassed] at hsolved
      exact ⟨_, (Advanced.solved hphase hsolved).advance_eq⟩
    · rw [decide_eq_false hpassed] at hsolved
      have hdone := not_lt.mp fun hleft => hstops ⟨hphase, hpassed, hleft⟩
      exact ⟨_, (Advanced.exhausted hphase hsolved hdone).advance_eq⟩

/-- A call that makes a generation counts it and gives its record, and the run goes on. -/
theorem of_advance_some {e' : Evolution σ} {record : GenerationRecord}
    (h : e.advance = .ok (some record, e')) :
    e'.generation = e.generation + 1 ∧ e'.phase = .running ∧ record = e'.currentRecord := by
  cases advance_cases h with
  | made _ _ _ hsteps =>
    obtain ⟨hgeneration, hphase, -⟩ := steps_bookkeeping hsteps
    exact ⟨hgeneration, hphase, rfl⟩

/-- **Every run comes to its end**: one call more than generations are left ends it. -/
theorem Rested.advances_isFinal {text : String} (hread : Problem.read text = .ok problem)
    (h : Rested settings problem supply e) {n : Nat}
    (hn : settings.generations < e.generation + n) :
    Answers (Evolution.advances n e) fun e' => e'.phase.isFinal = true := by
  induction n generalizing e with
  | zero =>
    have hle := (h.orderly hread).generation_le
    omega
  | succ n ih =>
    obtain ⟨haccepted, hsound⟩ := Reachable.sound hread (.rested h)
    have hcall := hsound.advance haccepted
    rw [Evolution.advances]
    cases hadvance : e.advance with
    | error fault => exact hcall.of_eq_error hadvance
    | ok r =>
      obtain ⟨record, e'⟩ := r
      cases record with
      | none =>
        show Answers (Evolution.advances n e') _
        obtain ⟨-, hfinal⟩ := of_advance_none hadvance
        rw [advances_of_isFinal hfinal]
        exact hfinal
      | some record =>
        obtain ⟨hgeneration, -, -⟩ := of_advance_some hadvance
        exact ih (h.advance hadvance) (e := e') (by omega)

/-! ## The phases of a run -/

/-- **The life of a run.** Between two calls there is a record for each generation, numbered from
zero, and no more generations than allowed; the phase agrees with the number of generations and
with the best fitness; and no generation was made from a population whose record had passed the
threshold. A call makes a generation just if the run goes on. Otherwise it leaves all but the phase
alone and ends the run, and an ended run answers every call so. One call more than generations are
left ends every run, and then the result tells how. -/
theorem Rested.lifecycle {text : String} (hread : Problem.read text = .ok problem)
    (h : Rested settings problem supply e) :
    e.history.size = e.generation + 1 ∧
      (∀ (i : Nat) (r : GenerationRecord), e.history[i]? = some r → r.generation = i) ∧
      e.generation ≤ settings.generations ∧ (e.phase = .initializing → e.generation = 0) ∧
      (∀ (i : Nat) (r : GenerationRecord), i < e.generation → e.history[i]? = some r →
        ¬ settings.solvedThreshold < r.bestFitness) ∧
      (∃ best, e.population.fitnessOf e.best = .ok best ∧
        (e.phase = .solved → settings.solvedThreshold < best) ∧
        (e.phase = .exhausted →
          e.generation = settings.generations ∧ ¬ settings.solvedThreshold < best) ∧
        (Answers e.advance fun r => r.1.isSome = true ↔ e.GoesOn settings best) ∧
        (¬ e.GoesOn settings best → ∃ e', e.advance = .ok (none, e'))) ∧
      (∀ e', e.advance = .ok (none, e') → e' = { e with phase := e'.phase } ∧
        e'.phase.isFinal = true ∧ e'.advance = .ok (none, e')) ∧
      ∀ n, settings.generations < e.generation + n →
        Answers (Evolution.advances n e) fun e' => e'.phase.isFinal = true ∧
          ∃ r, e'.result = .ok r ∧ (r.outcome = .solved ↔ e'.phase = .solved) ∧
            r.generations = e'.generation ∧ r.history = e'.history := by
  obtain ⟨haccepted, hsound⟩ := Reachable.sound hread (.rested h)
  have horderly := h.orderly hread
  obtain ⟨best, hbest, -⟩ := hsound.exists_best
  have hsolved := isSolved_eq hbest
  rw [hsound.settings_eq] at hsolved
  have hcall := hsound.advance haccepted
  simp only [← hsound.goesOn_iff hbest] at hcall
  refine ⟨horderly.size_history, horderly.numbered, horderly.generation_le, horderly.initial,
    horderly.unsolved, ⟨best, hbest, ?_, ?_, hcall.mono fun r hr => hr.2, ?_⟩, ?_, ?_⟩
  · intro hphase
    simpa [hsolved] using horderly.solved hphase
  · intro hphase
    obtain ⟨hunsolved, hall⟩ := horderly.exhausted hphase
    exact ⟨hall, by simpa [hsolved] using hunsolved⟩
  · intro hstops
    exact hsound.advance_of_not_goesOn hbest hstops
  · intro e' hnone
    obtain ⟨heq, hfinal⟩ := of_advance_none hnone
    exact ⟨heq, hfinal, advance_of_isFinal hfinal⟩
  · intro n hn
    have hends := h.advances_isFinal hread hn
    cases hcalls : Evolution.advances n e with
    | error fault => exact hends.of_eq_error hcalls
    | ok e' =>
      have hfinal := hends.of_eq_ok hcalls
      have hrested := h.advances hcalls
      exact ⟨hfinal, (hrested.orderly hread).result_of_isFinal (hrested.sound hread) hfinal⟩

set_option maxRecDepth 10000 in
/-- The small run is exhausted after its only generation, and stays so. -/
theorem lifecycle_sample : ∃ problem e, Problem.read Sample.text = .ok problem ∧
    Rested Sample.settings problem Sample.supply e ∧ e.phase = .exhausted ∧
    e.generation = Sample.settings.generations ∧ e.history.size = e.generation + 1 ∧
    e.advance = .ok (none, e) := by
  obtain ⟨problem, e₀, e, hread, hstart, hcalls, hphase⟩ :=
    Sample.exists_called Sample.settings 2 (fun e => e.phase == .exhausted) (by decide +kernel)
  have hphase : e.phase = .exhausted := by simpa using hphase
  have hrested := (Rested.start hstart).advances hcalls
  obtain ⟨hsize, -, -, -, -, ⟨best, -, -, hexhausted, -⟩, -, -⟩ := Rested.lifecycle hread hrested
  exact ⟨problem, e, hread, hrested, hphase, (hexhausted hphase).1, hsize,
    advance_of_isFinal (by rw [hphase]; rfl)⟩

end Evolution

end SymbolicRegression
