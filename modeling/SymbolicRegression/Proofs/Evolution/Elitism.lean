import SymbolicRegression.Proofs.Evolution.Lifecycle

set_option autoImplicit false
set_option relaxedAutoImplicit false

/-!
# Elitism

With elitism no fitness that a run has ever found is lost: the fitness of the best slot is the
greatest of all that have been found, for the first programs and for every child, whether the child
was put into a slot or refused. So the best fitness never falls, and a run that tests the threshold
only between generations still ends as solved just if some program ever passed it.

## Main definitions

* `SymbolicRegression.Evolution.Scores` — a step with the fitness of its child.
* `SymbolicRegression.Evolution.ReachableAfter` — a reachable run with every fitness found so far.
* `SymbolicRegression.Evolution.Tops` — the best slot holds the greatest of them.

## Main results

* `SymbolicRegression.Evolution.Tops.scores` — a step keeps the best slot on top.
* `SymbolicRegression.Evolution.ReachableAfter.tops` — it is on top in every reachable run.
* `SymbolicRegression.Evolution.Reachable.elitism_keeps_best` — what follows for whole runs.
-/

namespace SymbolicRegression

namespace Evolution

variable {σ : Type} [WordSource σ] {settings : Settings} {problem : Problem} {supply : Supply σ}

/-! ## What is scored -/

/-- A step breeds a child, finds the fitness `x` for it, and leads to `e'`. -/
def Scores (e : Evolution σ) (x : Float) (e' : Evolution σ) : Prop :=
  e.step = .ok e' ∧ ∃ child supply scorer,
    (breed e.settings e.problem.terminalCount e.population).run e.supply = .ok (child, supply) ∧
      e.scorer.score child = .ok (x, scorer)

/-- Steps one after another, with the fitness of their children. -/
inductive Scored (e : Evolution σ) : List Float → Evolution σ → Prop
  /-- No step is taken. -/
  | none : Scored e [] e
  /-- One more step is taken. -/
  | step {e₁ e₂ : Evolution σ} {xs : List Float} {x : Float} (h : Scored e xs e₁)
      (hscores : e₁.Scores x e₂) : Scored e (xs ++ [x]) e₂

/-- A run between two calls, with the fitness of every program scored so far. -/
inductive RestedAfter (settings : Settings) (problem : Problem) (supply : Supply σ) :
    List Float → Evolution σ → Prop
  /-- The run has just started, and the first programs have been scored. -/
  | start {e : Evolution σ} (h : start settings problem supply = .ok e) :
      RestedAfter settings problem supply e.population.fitness.toList e
  /-- It has been called and has made no generation. -/
  | ended {e e' : Evolution σ} {xs : List Float} (h : RestedAfter settings problem supply xs e)
      (hadvance : e.advance = .ok (none, e')) : RestedAfter settings problem supply xs e'
  /-- It has been called and has made a generation. -/
  | made {e e' : Evolution σ} {xs ys : List Float} {record : GenerationRecord}
      (h : RestedAfter settings problem supply xs e)
      (hadvance : e.advance = .ok (some record, e'.record))
      (hlength : ys.length = e.settings.populationSize)
      (hscored : Scored { e with phase := .running, generation := e.generation + 1 } ys e') :
      RestedAfter settings problem supply (xs ++ ys) e'.record

/-- A run between two calls or between the steps of a generation, with the fitness of every program
scored so far. -/
inductive ReachableAfter (settings : Settings) (problem : Problem) (supply : Supply σ) :
    List Float → Evolution σ → Prop
  /-- The run is between two calls. -/
  | rested {e : Evolution σ} {xs : List Float} (h : RestedAfter settings problem supply xs e) :
      ReachableAfter settings problem supply xs e
  /-- It has taken some of the steps of a generation. -/
  | midway {e e' : Evolution σ} {xs ys : List Float} (h : RestedAfter settings problem supply xs e)
      (hphase : e.phase.isFinal = false) (hunsolved : e.isSolved = .ok false)
      (hleft : e.generation < e.settings.generations)
      (hlength : ys.length ≤ e.settings.populationSize)
      (hscored : Scored { e with phase := .running, generation := e.generation + 1 } ys e') :
      ReachableAfter settings problem supply (xs ++ ys) e'

/-! ## Every run has been scored -/

/-- Every step scores a child. -/
theorem exists_scores {e e' : Evolution σ} (h : e.step = .ok e') : ∃ x, e.Scores x e' := by
  have hstep := h
  simp only [Evolution.step, bind_eq_ok_iff] at h
  obtain ⟨⟨child, supply⟩, hbreed, ⟨x, scorer⟩, hscore, -⟩ := h
  exact ⟨x, hstep, child, supply, scorer, hbreed, hscore⟩

/-- Steps before those that have been scored are scored too. -/
theorem Scored.cons {e e₁ e₂ : Evolution σ} {x : Float} {xs : List Float} (hscores : e.Scores x e₁)
    (h : Scored e₁ xs e₂) : Scored e (x :: xs) e₂ := by
  induction h with
  | none =>
    have hfirst : Scored e ([] ++ [x]) e₁ := .step .none hscores
    exact hfirst
  | step _ hlast ih => exact ih.step hlast

/-- A number of steps score as many children. -/
theorem exists_scored {n : Nat} {e e' : Evolution σ} (h : steps n e = .ok e') :
    ∃ xs, xs.length = n ∧ Scored e xs e' := by
  induction n generalizing e with
  | zero =>
    obtain rfl := Except.ok.inj h
    exact ⟨[], rfl, .none⟩
  | succ n ih =>
    rw [steps, bind_eq_ok_iff] at h
    obtain ⟨e₁, hfirst, hrest⟩ := h
    obtain ⟨x, hscores⟩ := exists_scores hfirst
    obtain ⟨xs, hlength, hscored⟩ := ih hrest
    exact ⟨x :: xs, by rw [List.length_cons, hlength], .cons hscores hscored⟩

/-- Scored steps are steps. -/
theorem Scored.keeps {P : Evolution σ → Prop} {e e' : Evolution σ} {xs : List Float}
    (h : Scored e xs e') (hstep : ∀ e e', P e → e.step = .ok e' → P e') (he : P e) : P e' := by
  induction h with
  | none => exact he
  | step _ hscores ih => exact hstep _ _ ih hscores.1

/-- Scored steps leave the bookkeeping alone. -/
theorem Scored.bookkeeping {e e' : Evolution σ} {xs : List Float} (h : Scored e xs e') :
    e'.generation = e.generation ∧ e'.phase = e.phase ∧ e'.history = e.history := by
  refine h.keeps (P := fun e' => e'.generation = e.generation ∧ e'.phase = e.phase ∧
    e'.history = e.history) (fun e₁ e₂ h₁ hstep => ?_) ⟨rfl, rfl, rfl⟩
  rw [step_frame hstep]
  exact h₁

/-- A run between two calls with what it has scored is a run between two calls. -/
theorem RestedAfter.rested {xs : List Float} {e : Evolution σ}
    (h : RestedAfter settings problem supply xs e) : Rested settings problem supply e := by
  induction h with
  | start h => exact .start h
  | ended _ hadvance ih => exact ih.advance hadvance
  | made _ hadvance _ _ ih => exact ih.advance hadvance

/-- Every run between two calls has scored some programs. -/
theorem Rested.exists_restedAfter {e : Evolution σ} (h : Rested settings problem supply e) :
    ∃ xs, RestedAfter settings problem supply xs e := by
  refine h.rec_advance (P := fun e => ∃ xs, RestedAfter settings problem supply xs e)
    (fun e hstart => ⟨_, .start hstart⟩) ?_
  rintro e record e' - ⟨xs, hxs⟩ hadvance
  cases record with
  | none => exact ⟨xs, hxs.ended hadvance⟩
  | some record =>
    cases advance_cases hadvance with
    | made _ _ _ hsteps =>
      obtain ⟨ys, hlength, hscored⟩ := exists_scored hsteps
      exact ⟨xs ++ ys, hxs.made hadvance hlength hscored⟩

/-- **Every reachable run has scored some programs.** -/
theorem Reachable.exists_reachableAfter {e : Evolution σ}
    (h : Reachable settings problem supply e) :
    ∃ xs, ReachableAfter settings problem supply xs e := by
  cases h with
  | rested h =>
    obtain ⟨xs, hxs⟩ := h.exists_restedAfter
    exact ⟨xs, .rested hxs⟩
  | midway h hphase hunsolved hleft hn hsteps =>
    obtain ⟨xs, hxs⟩ := h.exists_restedAfter
    obtain ⟨ys, rfl, hscored⟩ := exists_scored hsteps
    exact ⟨xs ++ ys, .midway hxs hphase hunsolved hleft hn hscored⟩

/-! ## The best slot stays on top -/

/-- What a step that scores a child does in a sound run. -/
theorem Sound.settled_of_scores {e e' : Evolution σ} {x : Float} (h : e.Sound settings problem)
    (haccepted : Accepted settings problem) (hscores : e.Scores x e') :
    x.isNaN = false ∧ ∃ child scorer slot supply,
      Settled { e with scorer, supply : Evolution σ } child x slot e' := by
  obtain ⟨hstep, child, supply, scorer, hbreed, hscore⟩ := hscores
  obtain ⟨_, _, _, slot, supply₂, hbreed', -, hscore', -, -, -, hsettled⟩ :=
    (h.step_spec haccepted).of_eq_ok hstep
  obtain ⟨rfl, rfl⟩ := Prod.mk.inj (Except.ok.inj (hbreed.symm.trans hbreed'))
  obtain ⟨rfl, rfl⟩ := Prod.mk.inj (Except.ok.inj (hscore.symm.trans hscore'))
  exact ⟨Program.isNaN_fitnessOn _ _ _, child, scorer, slot, supply₂, hsettled⟩

/-- The best slot of a run has the fitness `b`, the greatest that has been found. -/
structure Tops (xs : List Float) (b : Float) (e : Evolution σ) : Prop where
  /-- The fitness of the best slot. -/
  best : e.population.fitnessOf e.best = .ok b
  /-- Every slot has a fitness that has been found. -/
  mem : ∀ slot x, e.population.fitnessOf slot = .ok x → x ∈ xs
  /-- Every fitness that has been found is defined. -/
  defined : ∀ y ∈ xs, y.isNaN = false
  /-- None of them ranks above the best slot. -/
  rank_le : ∀ y ∈ xs, rank y ≤ rank b

namespace Tops

variable {e e' : Evolution σ} {xs : List Float} {b x : Float}

omit [WordSource σ]

/-- The greatest fitness has been found. -/
theorem best_mem (h : Tops xs b e) : b ∈ xs := h.mem _ b h.best

/-- Only the population and its best slot matter. -/
theorem of_eq (h : Tops xs b e) (hpopulation : e'.population = e.population)
    (hbest : e'.best = e.best) : Tops xs b e' :=
  ⟨hpopulation ▸ hbest ▸ h.best, hpopulation ▸ h.mem, h.defined, h.rank_le⟩

/-- No fitness that has been found is greater. -/
theorem le_best (h : Tops xs b e) {y : Float} (hy : y ∈ xs) : y ≤ b :=
  (le_iff_rank_le (h.defined y hy) (h.defined b h.best_mem)).mpr (h.rank_le y hy)

/-- The population as it stands after one more fitness has been found that does not rank above the
best slot. -/
theorem snoc (h : Tops xs b e) (hx : x.isNaN = false) (hle : rank x ≤ rank b) :
    Tops (xs ++ [x]) b e := by
  refine ⟨h.best, fun slot y hy => List.mem_append_left _ (h.mem slot y hy), ?_, ?_⟩
  · exact List.forall_mem_append.mpr ⟨h.defined, List.forall_mem_singleton.mpr hx⟩
  · exact List.forall_mem_append.mpr ⟨h.rank_le, List.forall_mem_singleton.mpr hle⟩

/-- Putting a child into a slot keeps the best slot on top if neither the greatest fitness so far
nor that of the child ranks above what is in the best slot then. -/
theorem put (h : Tops xs b e) (hx : x.isNaN = false) {slot best : Nat} {z : Float}
    (hslot : slot < e.population.size) (child : Program)
    (hz : (e.population.put slot child x).fitnessOf best = .ok z) (hb : rank b ≤ rank z)
    (hle : rank x ≤ rank z) :
    Tops (xs ++ [x]) z { e with population := e.population.put slot child x, best } := by
  refine ⟨hz, ?_, ?_, ?_⟩
  · intro i y hy
    rw [Population.fitnessOf_put hslot] at hy
    split at hy
    · obtain rfl := Except.ok.inj hy
      exact List.mem_append_right _ (List.mem_singleton_self _)
    · exact List.mem_append_left _ (h.mem i y hy)
  · exact List.forall_mem_append.mpr ⟨h.defined, List.forall_mem_singleton.mpr hx⟩
  · exact List.forall_mem_append.mpr
      ⟨fun y hy => (h.rank_le y hy).trans hb, List.forall_mem_singleton.mpr hle⟩

/-- **With elitism, settling a child keeps the best slot on top**, whatever the outcome.

**Proof sketch.** A refused child is worse than the best. A child that takes the best slot is not
worse, and one that takes another slot becomes the best if it is better. -/
theorem settled (h : Tops xs b e) (helitism : e.settings.elitism = true) (hx : x.isNaN = false)
    {child : Program} {slot : Nat} (hsettled : Settled e child x slot e') :
    ∃ b', Tops (xs ++ [x]) b' e' := by
  have hdefined : b.isNaN = false := h.defined b h.best_mem
  have hget : ∀ hbest : e.best < e.population.fitness.size,
      e.population.fitness[e.best] = b := fun hbest =>
    Except.ok.inj ((Population.fitnessOf_eq hbest).symm.trans h.best)
  cases hsettled with
  | refused hbest _ hworse =>
    rw [hget hbest, lt_iff_rank_lt hx hdefined] at hworse
    exact ⟨b, h.snoc hx hworse.le⟩
  | rescanned _ hfree => cases helitism.symm.trans hfree
  | kept hbest hnotWorse =>
    rw [hget hbest, lt_iff_rank_lt hx hdefined, not_lt] at hnotWorse
    have hslot : e.best < e.population.size := lt_of_lt_of_eq hbest e.population.size_fitness
    refine ⟨x, h.put hx hslot child ?_ hnotWorse le_rfl⟩
    rw [Population.fitnessOf_put hslot, if_pos rfl]
  | improved hbest hslot _ hbetter =>
    rw [hget hbest, lt_iff_rank_lt hdefined hx] at hbetter
    refine ⟨x, h.put hx hslot child ?_ hbetter.le le_rfl⟩
    rw [Population.fitnessOf_put hslot, if_pos rfl]
  | unimproved hbest hslot hne hnotBetter =>
    rw [hget hbest, lt_iff_rank_lt hdefined hx, not_lt] at hnotBetter
    refine ⟨b, h.put hx hslot child ?_ le_rfl hnotBetter⟩
    rw [Population.fitnessOf_put hslot, if_neg hne, h.best]

end Tops

/-! ## Elitism in whole runs -/

omit [WordSource σ] in
/-- The first programs have been scored, and the best slot is on top. -/
theorem Sound.tops {e : Evolution σ} (h : e.Sound settings problem) :
    ∃ b, Tops e.population.fitness.toList b e := by
  obtain ⟨b, hb, -⟩ := h.exists_best
  have hmem : ∀ y, y ∈ e.population.fitness.toList ↔
      ∃ (i : Nat) (hi : i < e.population.fitness.size), e.population.fitness[i] = y := by
    intro y
    rw [Array.mem_toList_iff, Array.mem_iff_getElem]
  refine ⟨b, hb, ?_, ?_, ?_⟩
  · intro slot x hx
    exact (hmem x).mpr ⟨slot, Population.fitnessOf_eq_ok_iff.mp hx⟩
  · intro y hy
    obtain ⟨i, hi, rfl⟩ := (hmem y).mp hy
    exact h.ranked i hi
  · intro y hy
    obtain ⟨i, hi, rfl⟩ := (hmem y).mp hy
    exact (h.rank_le_best hb).2 i hi

variable {e e' : Evolution σ} {xs ys : List Float} {b : Float}

/-- **With elitism, a step keeps the best slot on top.** -/
theorem Tops.scores (h : Tops xs b e) (hsound : e.Sound settings problem)
    (haccepted : Accepted settings problem) (helitism : settings.elitism = true) {x : Float}
    (hscores : e.Scores x e') : ∃ b', Tops (xs ++ [x]) b' e' := by
  obtain ⟨hx, child, scorer, slot, supply, hsettled⟩ := hsound.settled_of_scores haccepted hscores
  have helitism' : e.settings.elitism = true := hsound.settings_eq ▸ helitism
  have hscorer : Tops xs b { e with scorer, supply } := h.of_eq rfl rfl
  exact hscorer.settled helitism' hx hsettled

/-- With elitism, any number of steps keep the best slot on top. -/
theorem Tops.scored (h : Tops xs b e) (hsound : e.Sound settings problem)
    (haccepted : Accepted settings problem) (helitism : settings.elitism = true)
    (hscored : Scored e ys e') : ∃ b', Tops (xs ++ ys) b' e' := by
  have hstep : ∀ e e' : Evolution σ, e.Sound settings problem → e.step = .ok e' →
      e'.Sound settings problem := fun e e' he hstep => (he.step haccepted).of_eq_ok hstep
  induction hscored with
  | none => exact ⟨b, by rwa [List.append_nil]⟩
  | step hbefore hscores ih =>
    obtain ⟨b₁, h₁⟩ := ih
    rw [← List.append_assoc]
    exact h₁.scores (hbefore.keeps hstep hsound) haccepted helitism hscores

/-- With elitism, the steps of a generation keep the best slot on top. -/
theorem Tops.generation (h : Tops xs b e) (hsound : e.Sound settings problem)
    (haccepted : Accepted settings problem) (helitism : settings.elitism = true)
    (hscored : Scored { e with phase := .running, generation := e.generation + 1 } ys e') :
    ∃ b', Tops (xs ++ ys) b' e' := by
  have hopened : Tops xs b { e with phase := .running, generation := e.generation + 1 } :=
    h.of_eq rfl rfl
  exact hopened.scored (hsound.frame _ _ e.history) haccepted helitism hscored

/-- With elitism, the best slot of a run between two calls is on top. -/
theorem RestedAfter.tops {text : String} (hread : Problem.read text = .ok problem)
    (helitism : settings.elitism = true) (h : RestedAfter settings problem supply xs e) :
    ∃ b, Tops xs b e := by
  induction h with
  | start h => exact (sound_of_start (Problem.runnable_of_read hread) h).tops
  | ended _ hadvance ih =>
    obtain ⟨b, hb⟩ := ih
    rw [(of_advance_none hadvance).1]
    exact ⟨b, hb.of_eq rfl rfl⟩
  | made h _ _ hscored ih =>
    obtain ⟨b, hb⟩ := ih
    obtain ⟨haccepted, hsound⟩ := Reachable.sound hread (.rested h.rested)
    obtain ⟨b', hb'⟩ := hb.generation hsound haccepted helitism hscored
    exact ⟨b', hb'.of_eq rfl rfl⟩

/-- **With elitism, the best slot of a reachable run is on top**: it holds the greatest fitness of
all programs scored so far. -/
theorem ReachableAfter.tops {text : String} (hread : Problem.read text = .ok problem)
    (helitism : settings.elitism = true) (h : ReachableAfter settings problem supply xs e) :
    ∃ b, Tops xs b e := by
  cases h with
  | rested h => exact h.tops hread helitism
  | midway h _ _ _ _ hscored =>
    obtain ⟨b, hb⟩ := h.tops hread helitism
    obtain ⟨haccepted, hsound⟩ := Reachable.sound hread (.rested h.rested)
    exact hb.generation hsound haccepted helitism hscored

/-- With elitism, the best fitness of the records never falls.

**Proof sketch.** The record that a generation adds is of a population whose best slot is on top of
all that has been scored, also of what stood in the best slot when the record before was made. -/
theorem RestedAfter.bestFitness_le {text : String} (hread : Problem.read text = .ok problem)
    (helitism : settings.elitism = true) (h : RestedAfter settings problem supply xs e) :
    ∀ (i : Nat) (r r' : GenerationRecord), e.history[i]? = some r → e.history[i + 1]? = some r' →
      r.bestFitness ≤ r'.bestFitness := by
  induction h with
  | start h =>
    intro i r r' hr hr'
    obtain ⟨bindings, population, supply', rfl⟩ := exists_start_eq h
    obtain ⟨hi, -⟩ := Array.getElem?_eq_some_iff.mp hr'
    have hi : i + 1 < 1 := hi
    omega
  | ended _ hadvance ih =>
    rw [(of_advance_none hadvance).1]
    exact ih
  | @made e e' xs ys record h hadvance hlength hscored ih =>
    intro i r r' hr hr'
    have hmade := RestedAfter.made h hadvance hlength hscored
    have hhistory : e'.history = e.history := hscored.bookkeeping.2.2
    have horderly := h.rested.orderly hread
    rcases of_getElem?_record hr' with ⟨hlt, hr'⟩ | ⟨hi, rfl⟩
    · rcases of_getElem?_record hr with ⟨-, hr⟩ | ⟨rfl, -⟩
      · rw [hhistory] at hr hr'
        exact ih i r r' hr hr'
      · omega
    · rw [hhistory, horderly.size_history] at hi
      obtain rfl : i = e.generation := by omega
      rcases of_getElem?_record hr with ⟨-, hr⟩ | ⟨hi, -⟩
      · rw [hhistory, horderly.getElem?_history] at hr
        obtain rfl := Option.some.inj hr
        have hsound := h.rested.sound hread
        have hsound' := hmade.rested.sound hread
        obtain ⟨b, hb⟩ := h.tops hread helitism
        obtain ⟨b', hb'⟩ := hmade.tops hread helitism
        obtain ⟨hdefined, hrank⟩ := hsound.rank_bestFitness hb.best
        obtain ⟨hdefined', hrank'⟩ := hsound'.rank_bestFitness hb'.best
        refine (le_iff_rank_le hdefined hdefined').mpr ?_
        calc rank e.currentRecord.bestFitness = rank b := hrank
          _ ≤ rank b' := hb'.rank_le b (List.mem_append_left _ hb.best_mem)
          _ = rank e'.currentRecord.bestFitness := hrank'.symm
      · rw [hhistory, horderly.size_history] at hi
        omega

/-- With the best slot on top, a run that has ended is solved just if something passed the
threshold. -/
theorem ReachableAfter.result_of_isFinal {text : String} (hread : Problem.read text = .ok problem)
    (h : ReachableAfter settings problem supply xs e) (htops : Tops xs b e)
    (hfinal : e.phase.isFinal = true) : ∃ r, e.result = .ok r ∧
      (r.outcome = .solved ↔ ∃ y ∈ xs, settings.solvedThreshold < y) ∧
      (e.phase = .solved ↔ ∃ y ∈ xs, settings.solvedThreshold < y) := by
  cases h with
  | midway _ _ _ _ _ hscored =>
    -- between the steps of a generation a run has not ended
    rw [hscored.bookkeeping.2.1] at hfinal
    cases hfinal
  | rested h =>
    have horderly := h.rested.orderly hread
    have hsound := h.rested.sound hread
    obtain ⟨r, hr, houtcome, -, -⟩ := horderly.result_of_isFinal hsound hfinal
    have hpassed := horderly.phase_eq_solved_iff hsound htops.best hfinal
    have hsome : settings.solvedThreshold < b ↔ ∃ y ∈ xs, settings.solvedThreshold < y := by
      refine ⟨fun hlt => ⟨b, htops.best_mem, hlt⟩, ?_⟩
      rintro ⟨y, hy, hlt⟩
      have hthreshold := h.rested.isNaN_solvedThreshold
      rw [lt_iff_rank_lt hthreshold (htops.defined y hy)] at hlt
      rw [lt_iff_rank_lt hthreshold (htops.defined b htops.best_mem)]
      exact hlt.trans_le (htops.rank_le y hy)
    exact ⟨r, hr, houtcome.trans (hpassed.trans hsome), hpassed.trans hsome⟩

/-- **Elitism keeps the best program ever scored.** In every reachable run the fitness of the best
slot is the greatest of all that have been found so far, for the first programs and for every child,
stored or refused; no step and no record lets the best fitness fall; and a run that has ended is
solved just if some program ever scored has passed the threshold. -/
theorem Reachable.elitism_keeps_best {text : String} (hread : Problem.read text = .ok problem)
    (helitism : settings.elitism = true) (h : Reachable settings problem supply e) :
    (∃ xs, ReachableAfter settings problem supply xs e) ∧
      (∀ xs, ReachableAfter settings problem supply xs e → ∃ b,
        e.population.fitnessOf e.best = .ok b ∧ b ∈ xs ∧ (∀ y ∈ xs, y ≤ b) ∧
          (∀ x e', e.Scores x e' → ∃ b', e'.population.fitnessOf e'.best = .ok b' ∧ b ≤ b' ∧
            x ≤ b') ∧
          (e.phase.isFinal = true → ∃ r, e.result = .ok r ∧
            (r.outcome = .solved ↔ ∃ y ∈ xs, settings.solvedThreshold < y) ∧
            (e.phase = .solved ↔ ∃ y ∈ xs, settings.solvedThreshold < y))) ∧
      ∀ (i : Nat) (r r' : GenerationRecord), e.history[i]? = some r →
        e.history[i + 1]? = some r' → r.bestFitness ≤ r'.bestFitness := by
  refine ⟨h.exists_reachableAfter, ?_, ?_⟩
  · intro xs hxs
    obtain ⟨b, hb⟩ := hxs.tops hread helitism
    obtain ⟨haccepted, hsound⟩ := h.sound hread
    refine ⟨b, hb.best, hb.best_mem, fun y hy => hb.le_best hy, ?_, ?_⟩
    · intro x e' hscores
      obtain ⟨b', hb'⟩ := hb.scores hsound haccepted helitism hscores
      exact ⟨b', hb'.best, hb'.le_best (List.mem_append_left _ hb.best_mem),
        hb'.le_best (List.mem_append_right _ (List.mem_singleton_self x))⟩
    · intro hfinal
      exact hxs.result_of_isFinal hread hb hfinal
  · obtain ⟨xs, hxs⟩ := h.exists_reachableAfter
    cases hxs with
    | rested hxs => exact hxs.bestFitness_le hread helitism
    | @midway e₁ _ xs ys hxs _ _ _ _ hscored =>
      have hhistory : e.history = e₁.history := hscored.bookkeeping.2.2
      rw [hhistory]
      exact hxs.bestFitness_le hread helitism

set_option maxRecDepth 10000 in
/-- The small run with elitism ends with the best of all that it has scored, and not solved. -/
theorem elitism_keeps_best_sample : ∃ problem e xs b, Problem.read Sample.text = .ok problem ∧
    Reachable { Sample.settings with elitism := true } problem Sample.supply e ∧
    ReachableAfter { Sample.settings with elitism := true } problem Sample.supply xs e ∧
    e.phase = .exhausted ∧ e.population.fitnessOf e.best = .ok b ∧ (∀ y ∈ xs, y ≤ b) ∧
    ¬ ∃ y ∈ xs, Sample.settings.solvedThreshold < y := by
  obtain ⟨problem, e₀, e, hread, hstart, hcalls, hphase⟩ :=
    Sample.exists_called { Sample.settings with elitism := true } 2
      (fun e => e.phase == .exhausted) (by decide +kernel)
  have hphase : e.phase = .exhausted := by simpa using hphase
  have hreachable : Reachable _ problem Sample.supply e :=
    .rested ((Rested.start hstart).advances hcalls)
  obtain ⟨⟨xs, hxs⟩, htop, -⟩ := Reachable.elitism_keeps_best hread rfl hreachable
  obtain ⟨b, hb, -, hle, -, hend⟩ := htop xs hxs
  obtain ⟨-, -, -, hsolved⟩ := hend (by rw [hphase]; rfl)
  refine ⟨problem, e, xs, b, hread, hreachable, hxs, hphase, hb, hle, ?_⟩
  rw [← hsolved, hphase]
  decide

end Evolution

end SymbolicRegression
