import SymbolicRegression.Proofs.Evolution.Population

set_option autoImplicit false
set_option relaxedAutoImplicit false

/-!
# Calls

A run between two calls is one that has been started and then asked for a number of generations:
runs with reports ask for generations too, and nothing else that they do changes the state. What a
call leaves alone, and how calls follow one another, is said here once for all that is proved
about whole runs.

## Main definitions

* `SymbolicRegression.Evolution.advances` — a number of calls.

## Main results

* `SymbolicRegression.Evolution.step_frame` — what a step leaves alone.
* `SymbolicRegression.Evolution.exists_advances_of_isFinal` — calls lead to one end.
* `SymbolicRegression.Evolution.Rested.rec_advance` — induction over the calls of a run.
* `SymbolicRegression.Evolution.Rested.exists_advances` — every run between two calls is a number
  of calls away from its start.
* `SymbolicRegression.Evolution.Sound.advance` — a call can only lack words.
-/

namespace SymbolicRegression

namespace Evolution

variable {σ : Type}

/-! ## What a step leaves alone -/

/-- Settling a child changes the population and the best slot at most. -/
theorem settle_frame {e e' : Evolution σ} {slot : Nat} {child : Program} {fitness : Float}
    (h : e.settle slot child fitness = .ok e') :
    e' = { e with population := e'.population, best := e'.best } := by
  rw [settle, bind_eq_ok_iff] at h
  obtain ⟨bestFitness, -, h⟩ := h
  split at h
  · split at h
    · obtain rfl := Except.ok.inj h
      rfl
    · obtain ⟨population, -, h⟩ := bind_eq_ok_iff.mp h
      obtain rfl := Except.ok.inj h
      rfl
  · obtain ⟨population, -, h⟩ := bind_eq_ok_iff.mp h
    obtain rfl := Except.ok.inj h
    rfl

/-- Settling a child looks at the population, the best slot and elitism only. -/
theorem settle_congr {e e' f : Evolution σ} {slot : Nat} {child : Program} {fitness : Float}
    (h : e.settle slot child fitness = .ok e') (hpopulation : f.population = e.population)
    (hbest : f.best = e.best) (helitism : f.settings.elitism = e.settings.elitism) :
    f.settle slot child fitness =
      .ok { f with population := e'.population, best := e'.best } := by
  rw [settle, bind_eq_ok_iff] at h
  obtain ⟨bestFitness, hfitness, h⟩ := h
  rw [settle, hpopulation, hbest, helitism]
  refine bind_eq_ok_iff.mpr ⟨bestFitness, hfitness, ?_⟩
  by_cases hslot : slot = e.best
  · rw [if_pos hslot] at h ⊢
    by_cases hkept : e.settings.elitism ∧ fitness < bestFitness
    · rw [if_pos hkept] at h ⊢
      obtain rfl := Except.ok.inj h
      rw [← hpopulation, ← hbest]
      rfl
    · rw [if_neg hkept, bind_eq_ok_iff] at h
      obtain ⟨population, hreplace, h⟩ := h
      obtain rfl := Except.ok.inj h
      rw [if_neg hkept]
      exact bind_eq_ok_iff.mpr ⟨population, hreplace, rfl⟩
  · rw [if_neg hslot, bind_eq_ok_iff] at h
    obtain ⟨population, hreplace, h⟩ := h
    obtain rfl := Except.ok.inj h
    rw [if_neg hslot]
    exact bind_eq_ok_iff.mpr ⟨population, hreplace, rfl⟩

variable [WordSource σ]

/-- **A step changes the scorer, the supply, the population and the best slot at most.** -/
theorem step_frame {e e' : Evolution σ} (h : e.step = .ok e') :
    e' = { e with
      scorer := e'.scorer, supply := e'.supply, population := e'.population, best := e'.best } := by
  simp only [step, bind_eq_ok_iff] at h
  obtain ⟨⟨child, supply⟩, -, ⟨fitness, scorer⟩, -, ⟨slot, supply'⟩, -, h⟩ := h
  have hsettle := settle_frame h
  rw [hsettle]

/-- A number of steps change the scorer, the supply, the population and the best slot at most. -/
theorem steps_frame {n : Nat} {e e' : Evolution σ} (h : steps n e = .ok e') :
    e' = { e with
      scorer := e'.scorer, supply := e'.supply, population := e'.population, best := e'.best } := by
  refine steps_keep (P := fun e' => e' = { e with
    scorer := e'.scorer, supply := e'.supply, population := e'.population, best := e'.best })
    ?_ rfl h
  intro e₁ e₂ h₁ hstep
  have h₂ := step_frame hstep
  rw [h₁] at h₂
  exact h₂

/-- A number of steps leave the bookkeeping alone. -/
theorem steps_bookkeeping {n : Nat} {e e' : Evolution σ} (h : steps n e = .ok e') :
    e'.generation = e.generation ∧ e'.phase = e.phase ∧ e'.history = e.history := by
  rw [steps_frame h]
  exact ⟨rfl, rfl, rfl⟩

/-! ## What a call leaves alone -/

/-- A call leaves the parameters alone. -/
theorem settings_of_advance {e e' : Evolution σ} {record : Option GenerationRecord}
    (h : e.advance = .ok (record, e')) : e'.settings = e.settings := by
  cases advance_cases h with
  | ended => rfl
  | solved => rfl
  | exhausted => rfl
  | @made e₁ _ _ _ hsteps =>
    show e₁.settings = e.settings
    rw [steps_frame hsteps]

/-- A call only adds to the history. -/
theorem history_of_advance {e e' : Evolution σ} {record : Option GenerationRecord}
    (h : e.advance = .ok (record, e')) : e.history.toList <+: e'.history.toList := by
  cases advance_cases h with
  | ended => exact List.prefix_rfl
  | solved => exact List.prefix_rfl
  | exhausted => exact List.prefix_rfl
  | @made e₁ _ _ _ hsteps =>
    have hhistory : e₁.history = e.history := (steps_bookkeeping hsteps).2.2
    rw [Evolution.record, hhistory, Array.toList_push]
    exact List.prefix_append _ _

/-! ## The first state -/

/-- A run starts with a population of which a first record is made. -/
theorem exists_start_eq {settings : Settings} {problem : Problem} {supply : Supply σ}
    {e : Evolution σ} (h : start settings problem supply = .ok e) :
    ∃ bindings population supply', e = begun settings problem bindings population supply' := by
  obtain ⟨-, -, -, h⟩ := start_eq_ok_iff.mp h
  obtain ⟨bindings, population, supply', -, rfl⟩ := startFrom_eq_ok_iff.mp h
  exact ⟨bindings, population, supply', rfl⟩

/-- The parameters of a run that has just started. -/
theorem settings_of_start {settings : Settings} {problem : Problem} {supply : Supply σ}
    {e : Evolution σ} (h : start settings problem supply = .ok e) : e.settings = settings := by
  obtain ⟨_, _, _, rfl⟩ := exists_start_eq h
  rfl

/-! ## Numbers of calls -/

/-- The run after a number of calls. -/
def advances : Nat → Evolution σ → Except Fault (Evolution σ)
  | 0, e => .ok e
  | n + 1, e => do advances n (← e.advance).2

/-- The calls after the first one. -/
theorem advances_succ {n : Nat} {e e₁ : Evolution σ} {record : Option GenerationRecord}
    (h : e.advance = .ok (record, e₁)) : advances (n + 1) e = advances n e₁ := by
  rw [advances, h]
  rfl

/-- One call. -/
theorem advances_one {e e' : Evolution σ} {record : Option GenerationRecord}
    (h : e.advance = .ok (record, e')) : advances 1 e = .ok e' :=
  advances_succ h

/-- Calls follow one another. -/
theorem advances_add (m n : Nat) (e : Evolution σ) :
    advances (m + n) e = advances m e >>= advances n := by
  induction m generalizing e with
  | zero =>
    rw [Nat.zero_add]
    rfl
  | succ m ih =>
    rw [Nat.add_right_comm, advances, advances, bind_assoc]
    exact bind_congr fun r => ih r.2

/-- Further calls from a state that calls have led to. -/
theorem advances_add_of_eq_ok {m n : Nat} {e e₁ : Evolution σ} (h : advances m e = .ok e₁) :
    advances (m + n) e = advances n e₁ := by
  rw [advances_add, h]
  rfl

/-- A run that has ended answers further calls with nothing and stays as it is. -/
theorem advance_of_isFinal {e : Evolution σ} (h : e.phase.isFinal = true) :
    e.advance = .ok (none, e) := by
  rw [advance, if_pos h]
  rfl

/-- A run that has ended stays as it is. -/
theorem advances_of_isFinal {e : Evolution σ} (h : e.phase.isFinal = true) (n : Nat) :
    advances n e = .ok e := by
  induction n with
  | zero => rfl
  | succ n ih => rw [advances_succ (advance_of_isFinal h), ih]

/-- Calls only add to the history. -/
theorem history_of_advances {n : Nat} {e e' : Evolution σ} (h : advances n e = .ok e') :
    e.history.toList <+: e'.history.toList := by
  induction n generalizing e with
  | zero =>
    obtain rfl := Except.ok.inj h
    exact List.prefix_rfl
  | succ n ih =>
    obtain ⟨⟨record, e₁⟩, hadvance, h⟩ := bind_eq_ok_iff.mp h
    exact (history_of_advance hadvance).trans (ih h)

omit [WordSource σ] in
/-- A record keeps its place in a history that goes on. -/
theorem getElem?_history_of_prefix {e e' : Evolution σ}
    (h : e.history.toList <+: e'.history.toList) {g : Nat} {r : GenerationRecord}
    (hr : e.history[g]? = some r) : e'.history[g]? = some r := by
  obtain ⟨hlt, heq⟩ := Array.getElem?_eq_some_iff.mp hr
  have hkept := List.prefix_iff_getElem?.mp h g (by rwa [Array.length_toList])
  rwa [Array.getElem?_toList, Array.getElem_toList, heq] at hkept

/-- Whatever calls lead to from the start of an ended run, further calls lead from there to its
end. -/
theorem exists_advances_of_isFinal {m n : Nat} {e e' final : Evolution σ}
    (hcalls : advances m e = .ok final) (hfinal : final.phase.isFinal = true)
    (h : advances n e = .ok e') : ∃ k, advances k e' = .ok final := by
  rcases le_total n m with hle | hle
  · obtain ⟨k, rfl⟩ := Nat.exists_eq_add_of_le hle
    exact ⟨k, advances_add_of_eq_ok h ▸ hcalls⟩
  · obtain ⟨k, rfl⟩ := Nat.exists_eq_add_of_le hle
    rw [advances_add_of_eq_ok hcalls, advances_of_isFinal hfinal] at h
    obtain rfl := Except.ok.inj h
    exact ⟨0, rfl⟩

/-- Wherever calls have led to from the start of an ended run, a further call has an answer. -/
theorem exists_advance_of_isFinal {m n : Nat} {e e' final : Evolution σ}
    (hcalls : advances m e = .ok final) (hfinal : final.phase.isFinal = true)
    (h : advances n e = .ok e') : ∃ r, e'.advance = .ok r := by
  obtain ⟨k, hrest⟩ := exists_advances_of_isFinal hcalls hfinal h
  cases k with
  | zero =>
    obtain rfl := Except.ok.inj hrest
    exact ⟨_, advance_of_isFinal hfinal⟩
  | succ k =>
    obtain ⟨r, hadvance, -⟩ := bind_eq_ok_iff.mp hrest
    exact ⟨r, hadvance⟩

/-- **Calls lead to one end**: two ended runs that calls lead to from one state are the same. -/
theorem eq_of_advances_isFinal {m n : Nat} {e a b : Evolution σ} (ha : advances m e = .ok a)
    (hb : advances n e = .ok b) (hfinal : a.phase.isFinal = true)
    (hfinal' : b.phase.isFinal = true) : a = b := by
  obtain ⟨k, hrest⟩ := exists_advances_of_isFinal ha hfinal hb
  rw [advances_of_isFinal hfinal'] at hrest
  exact (Except.ok.inj hrest).symm

/-! ## Runs between two calls -/

variable {settings : Settings} {problem : Problem} {supply : Supply σ} {e : Evolution σ}

/-- **Induction over the calls of a run**: what holds at the start and is preserved by every call
holds between any two calls. -/
theorem Rested.rec_advance {P : Evolution σ → Prop}
    (hstart : ∀ e, Evolution.start settings problem supply = .ok e → P e)
    (hadvance : ∀ e record e', Rested settings problem supply e → P e →
      e.advance = .ok (record, e') → P e')
    (h : Rested settings problem supply e) : P e := by
  induction h with
  | start h => exact hstart _ h
  | advance h h' ih => exact hadvance _ _ _ h ih h'
  | run h reporter out ih =>
    -- a run with reports consists of calls, so it keeps `P` together with being between two calls
    exact (run_keeps (P := fun e => Rested settings problem supply e ∧ P e)
      (fun _ _ _ he h' => ⟨he.1.advance h', hadvance _ _ _ he.1 he.2 h'⟩) ⟨h, ih⟩ reporter out).2

/-- Calls lead from a run between two calls to another. -/
theorem Rested.advances {n : Nat} {e' : Evolution σ} (h : Rested settings problem supply e)
    (hcalls : Evolution.advances n e = .ok e') : Rested settings problem supply e' := by
  induction n generalizing e with
  | zero =>
    obtain rfl := Except.ok.inj hcalls
    exact h
  | succ n ih =>
    obtain ⟨⟨record, e₁⟩, hadvance, hcalls⟩ := bind_eq_ok_iff.mp hcalls
    exact ih (h.advance hadvance) hcalls

/-- **Every run between two calls is a number of calls away from its start.** -/
theorem Rested.exists_advances (h : Rested settings problem supply e) :
    ∃ e₀ n, Evolution.start settings problem supply = .ok e₀ ∧
      Evolution.advances n e₀ = .ok e := by
  refine h.rec_advance (P := fun e => ∃ e₀ n, Evolution.start settings problem supply = .ok e₀ ∧
    Evolution.advances n e₀ = .ok e) ?_ ?_
  · intro e hstart
    exact ⟨e, 0, hstart, rfl⟩
  · rintro e record e' - ⟨e₀, n, hstart, hcalls⟩ hadvance
    refine ⟨e₀, n + 1, hstart, ?_⟩
    rw [advances_add_of_eq_ok hcalls, advances_one hadvance]

/-- A run starts only under parameters in range. -/
theorem Rested.check_eq_ok (h : Rested settings problem supply e) : settings.check = .ok () := by
  obtain ⟨e₀, -, hstart, -⟩ := h.exists_advances
  exact (start_eq_ok_iff.mp hstart).1

/-- Nor is a run between the steps of a generation under others. -/
theorem Reachable.check_eq_ok (h : Reachable settings problem supply e) :
    settings.check = .ok () := by
  cases h with
  | rested h => exact h.check_eq_ok
  | midway h => exact h.check_eq_ok

/-- A run between two calls is sound. -/
theorem Rested.sound {text : String} (hread : Problem.read text = .ok problem)
    (h : Rested settings problem supply e) : e.Sound settings problem :=
  (Reachable.sound hread (.rested h)).2

/-! ## Calls answer -/

namespace Sound

/-- Steps keep a run sound and can only lack words. -/
theorem steps (h : e.Sound settings problem) (haccepted : Accepted settings problem) (n : Nat) :
    Answers (Evolution.steps n e) (Evolution.Sound settings problem) := by
  induction n generalizing e with
  | zero => exact h
  | succ n ih => exact (h.step haccepted).bind fun e' he' => ih he'

omit [WordSource σ] in
/-- The best slot of a sound run has a fitness, and it is defined. -/
theorem exists_best (h : e.Sound settings problem) :
    ∃ x, e.population.fitnessOf e.best = .ok x ∧ x.isNaN = false :=
  ⟨_, Population.fitnessOf_eq h.best_lt, h.ranked _ h.best_lt⟩

omit [WordSource σ] in
/-- The program in the best slot of a sound run has a text. -/
theorem exists_formula (h : e.Sound settings problem) : ∃ text, e.formula e.best = .ok text := by
  have hlt : e.best < e.population.programs.size :=
    lt_of_lt_of_eq h.best_lt e.population.size_fitness
  refine ⟨e.population.programs[e.best].formula e.bindings.layout, ?_⟩
  rw [formula, Population.program_eq hlt]
  rfl

omit [WordSource σ] in
/-- A sound run has a result. -/
theorem exists_result (h : e.Sound settings problem) : ∃ r, e.result = .ok r := by
  obtain ⟨x, hx, -⟩ := h.exists_best
  have hlt := lt_of_lt_of_eq h.best_lt e.population.size_fitness
  exact ⟨_, result_eq (Population.program_eq hlt) hx⟩

/-- **A call keeps a run sound and can only lack words.** It gives a record if the run has not
ended, has not passed the threshold and has generations left. -/
theorem advance (h : e.Sound settings problem) (haccepted : Accepted settings problem) :
    Answers e.advance fun r => r.2.Sound settings problem ∧
      (r.1.isSome = true ↔ e.phase.isFinal = false ∧ e.isSolved = .ok false ∧
        e.generation < e.settings.generations) := by
  obtain ⟨x, hx, -⟩ := h.exists_best
  have hsolved := isSolved_eq hx
  rw [Evolution.advance]
  split
  · rename_i hfinal
    exact ⟨h, by simp [hfinal]⟩
  · rename_i hphase
    rw [hsolved]
    show Answers (if decide _ = true then _ else _) _
    split
    · rename_i htrue
      exact ⟨h.frame _ _ _, by simp [htrue]⟩
    · rename_i hfalse
      split
      · rename_i hdone
        exact ⟨h.frame _ _ _, by simp [Nat.not_lt.mpr hdone]⟩
      · rename_i hleft
        refine ((h.frame .running (e.generation + 1) e.history).steps haccepted _).bind ?_
        intro e' he'
        refine ⟨he'.frame _ _ _, ?_⟩
        simp only [Option.isSome_some, true_iff]
        exact ⟨by simpa using hphase, by simpa using hfalse, by omega⟩

end Sound

end Evolution

/-! ## Small runs -/

namespace Sample

/-- The small problem, a run on it at its start, and this run after a number of calls. -/
def called (settings : Settings) (n : Nat) :
    Option (Problem × Evolution Cycle × Evolution Cycle) :=
  match Problem.read text with
  | .error _ => none
  | .ok problem =>
    match Evolution.start settings problem supply with
    | .error _ => none
    | .ok e =>
      match Evolution.advances n e with
      | .error _ => none
      | .ok e' => some (problem, e, e')

/-- A small run that passes a test is one that has been started and called. -/
theorem exists_called (settings : Settings) (n : Nat) (test : Evolution Cycle → Bool)
    (h : (called settings n).any (fun r => test r.2.2) = true) : ∃ problem e e',
      Problem.read text = .ok problem ∧ Evolution.start settings problem supply = .ok e ∧
        Evolution.advances n e = .ok e' ∧ test e' = true := by
  unfold called at h
  split at h
  · cases h
  · split at h
    · cases h
    · split at h
      · cases h
      · exact ⟨_, _, _, ‹_›, ‹_›, ‹_›, h⟩

/-- A run on a problem starts, and after a number of calls it passes a test. -/
def reaches (settings : Settings) (problem : Problem) (n : Nat) (test : Evolution Cycle → Bool) :
    Bool :=
  match Evolution.start settings problem supply with
  | .error _ => false
  | .ok e =>
    match Evolution.advances n e with
    | .error _ => false
    | .ok e' => test e'

/-- A run that passes a test after a number of calls is one that has been started and called. -/
theorem exists_of_reaches {settings : Settings} {problem : Problem} {n : Nat}
    {test : Evolution Cycle → Bool} (h : reaches settings problem n test = true) : ∃ e e',
      Evolution.start settings problem supply = .ok e ∧ Evolution.advances n e = .ok e' ∧
        test e' = true := by
  unfold reaches at h
  split at h
  · cases h
  · split at h
    · cases h
    · exact ⟨_, _, ‹_›, ‹_›, h⟩

end Sample

end SymbolicRegression
