import SymbolicRegression.Proofs.Breeding.Endings
import SymbolicRegression.Proofs.Evolution.Recovery

set_option autoImplicit false
set_option relaxedAutoImplicit false

/-!
# How many words a run takes

All that is said of the steps and the calls of a run leaves one thing open, that its words run out.
On a stream on which the draws of indices end they need not: a step breeds one child and draws one
slot for it, a call takes as many steps as there are programs, and there are only so many calls. So
there is a number of words with which the run comes to its end, and with more of them it is the
same run.

The start of a run is left out of this, since its generator may give up one program after another
for ever. But if a run starts at all it starts in the same way when there are more words.

## Main definitions

* `SymbolicRegression.Evolution.withWords` — a run with another number of words that may be taken.
* `SymbolicRegression.Evolution.Takes` — what a computation leaves of a run, and behind which words.

## Main results

* `SymbolicRegression.Evolution.Sound.exists_takes_step` — a step ends.
* `SymbolicRegression.Evolution.Sound.exists_takes_advance` — a call ends.
* `SymbolicRegression.Evolution.exists_start_withWords` — more words give the same start.
* `SymbolicRegression.Evolution.exists_enough_words` — a run that has started comes to its end.
-/

namespace SymbolicRegression

open Draw (IndicesEnd Ends)
open WordSource (drop)

namespace Evolution

variable {σ : Type} {settings : Settings} {problem : Problem} {e : Evolution σ}

/-! ## Words that may be taken -/

/-- The run with a number of words that may still be taken. -/
def withWords (e : Evolution σ) (left : Nat) : Evolution σ :=
  { e with supply := { e.supply with left } }

/-- How many words may be taken does not make a run sound or unsound. -/
theorem Sound.withWords (h : e.Sound settings problem) (left : Nat) :
    (e.withWords left).Sound settings problem :=
  h.scored ⟨e.supply.source, left⟩ rfl rfl

variable [WordSource σ]

/-- **The computation takes `n` words of the run `e` and leaves the run `e'`**, however many words
may be taken behind those. -/
structure Takes (f : Evolution σ → Except Fault (Evolution σ)) (e : Evolution σ) (n : Nat)
    (e' : Evolution σ) : Prop where
  /-- The words are the next ones of the stream. -/
  source_eq : e'.supply.source = drop n e.supply.source
  /-- Those behind them make no difference. -/
  run_eq : ∀ left, f (e.withWords (n + left)) = .ok (e'.withWords left)

/-- **Any number of computations end if each does** from every sound run.

**Proof sketch.** Induction on their number: the first takes its words, and the others go on behind
these. -/
theorem Sound.exists_takes_iterate {f : Evolution σ → Except Fault (Evolution σ)}
    (hf : ∀ e : Evolution σ, e.Sound settings problem → IndicesEnd e.supply.source →
      ∃ n e', e'.Sound settings problem ∧ Takes f e n e')
    {g : Nat → Evolution σ → Except Fault (Evolution σ)} (hzero : ∀ e, g 0 e = .ok e)
    (hsucc : ∀ k e, g (k + 1) e = f e >>= g k) (h : e.Sound settings problem)
    (hends : IndicesEnd e.supply.source) (k : Nat) :
    ∃ n e', e'.Sound settings problem ∧ Takes (g k) e n e' := by
  induction k generalizing e with
  | zero =>
    refine ⟨0, e, h, rfl, fun left => ?_⟩
    rw [Nat.zero_add, hzero]
  | succ k ih =>
    obtain ⟨m, e₁, hsound₁, hfirst⟩ := hf e h hends
    obtain ⟨n, e', hsound, hrest⟩ := ih hsound₁ (hfirst.source_eq ▸ hends.drop m)
    refine ⟨m + n, e', hsound, ?_, fun left => ?_⟩
    · rw [hrest.source_eq, hfirst.source_eq, WordSource.drop_add]
    · rw [hsucc, Nat.add_assoc, hfirst.run_eq]
      exact hrest.run_eq left

/-! ## Steps -/

/-- Breeding a child ends, whatever the parameters and the population are. -/
theorem ends_breed (settings : Settings) (terminals : Nat) (population : Population) :
    Ends (breed settings terminals population : Draw σ Program) := by
  have hprogram : ∀ slot, population.program slot ≠ .error .supplyExhausted := by
    intro slot
    unfold Population.program
    split <;> exact nofun
  have hchoose : Ends (tournament population.fitness settings.tournamentSize : Draw σ Nat) :=
    ends_contest _ _ _
  refine (Draw.ends_coin settings.crossoverProbability).bind fun crosses => ?_
  split
  · refine hchoose.bind fun slot₁ => hchoose.bind fun slot₂ => ?_
    refine (Ends.lift (hprogram slot₁)).bind fun parent₁ => ?_
    refine (Ends.lift (hprogram slot₂)).bind fun parent₂ => ?_
    exact ends_crossover parent₁ parent₂ settings.maxLength
  · refine hchoose.bind fun slot => ?_
    refine (Ends.lift (hprogram slot)).bind fun parent => ?_
    exact ends_mutate parent settings.mutationProbability terminals

/-- **A step ends**: it takes a number of words and leaves a sound run.

**Proof sketch.** The child is bred, and the slot is drawn behind the words that this takes. Scoring
and settling draw nothing and do not look at the words. -/
theorem Sound.exists_takes_step (h : e.Sound settings problem)
    (haccepted : Accepted settings problem) (hends : IndicesEnd e.supply.source) :
    ∃ n e', e'.Sound settings problem ∧ Takes Evolution.step e n e' := by
  have hsize : 0 < e.population.fitness.size := Nat.zero_lt_of_lt h.best_lt
  have hloser : Draw.Yields
      (negativeTournament e.population.fitness e.settings.tournamentSize : Draw σ Nat)
      (· < e.population.fitness.size) := yields_contest _ _ hsize _
  obtain ⟨m, child, hbreed, -⟩ := (ends_breed _ _ _).exists_takes (h.breed haccepted) hends
  obtain ⟨n, slot, hlose, hslot⟩ := (ends_contest _ _ _).exists_takes hloser (hends.drop m)
  obtain ⟨scorer, hscore, -, -⟩ := e.scorer.score_eq child (h.size_inputs haccepted.runnable)
  obtain ⟨e', hsettle, -⟩ := settle_spec
    (e := { e with scorer, supply := ⟨drop n (drop m e.supply.source), 0⟩ })
    h.best_lt (e.population.size_fitness ▸ hslot) child
    (child.fitnessOn e.scorer.cases e.scorer.bindings.constants)
  have hframe := settle_frame hsettle
  have hstep : ∀ left, (e.withWords (m + n + left)).step = .ok (e'.withWords left) := by
    intro left
    rw [Nat.add_assoc]
    simp only [Evolution.step, bind_eq_ok_iff]
    refine ⟨_, hbreed (n + left), _, hscore, _, hlose left, ?_⟩
    refine (settle_congr (f := { e with scorer, supply := ⟨drop n (drop m e.supply.source), left⟩ })
      hsettle rfl rfl rfl).trans (congrArg _ ?_)
    rw [hframe]
    rfl
  have hsound := ((h.withWords (m + n + 0)).step haccepted).of_eq_ok (hstep 0)
  refine ⟨m + n, e', hsound.withWords e'.supply.left, ?_, hstep⟩
  rw [hframe, WordSource.drop_add]

/-- Steps end. -/
theorem Sound.exists_takes_steps (h : e.Sound settings problem)
    (haccepted : Accepted settings problem) (hends : IndicesEnd e.supply.source) (k : Nat) :
    ∃ n e', e'.Sound settings problem ∧ Takes (Evolution.steps k) e n e' :=
  h.exists_takes_iterate (fun _ he hends => he.exists_takes_step haccepted hends) (fun _ => rfl)
    (fun _ _ => rfl) hends k

/-! ## Calls -/

/-- **A call ends**, with or without a record: it takes a number of words and leaves a sound run,
however many words may be taken behind those.

**Proof sketch.** The words have no part in the tests that a call makes. If these end the run it
takes no word, and otherwise it takes those of its steps. -/
theorem Sound.exists_takes_advance (h : e.Sound settings problem)
    (haccepted : Accepted settings problem) (hends : IndicesEnd e.supply.source) :
    ∃ (n : Nat) (record : Option GenerationRecord) (e' : Evolution σ),
      e'.Sound settings problem ∧ e'.supply.source = drop n e.supply.source ∧
      ∀ left, (e.withWords (n + left)).advance = .ok (record, e'.withWords left) := by
  obtain ⟨x, hx, -⟩ := h.exists_best
  obtain ⟨passed, hsolved⟩ : ∃ passed, e.isSolved = .ok passed := ⟨_, isSolved_eq hx⟩
  by_cases hfinal : e.phase.isFinal = true
  · refine ⟨0, none, e, h, rfl, fun left => ?_⟩
    rw [Nat.zero_add]
    exact advance_of_isFinal hfinal
  rw [Bool.not_eq_true] at hfinal
  cases passed with
  | true =>
    refine ⟨0, none, { e with phase := .solved }, h.frame _ _ _, rfl, fun left => ?_⟩
    rw [Nat.zero_add]
    exact (Advanced.solved (e := e.withWords left) hfinal hsolved).advance_eq
  | false =>
    by_cases hdone : e.settings.generations ≤ e.generation
    · refine ⟨0, none, { e with phase := .exhausted }, h.frame _ _ _, rfl, fun left => ?_⟩
      rw [Nat.zero_add]
      exact (Advanced.exhausted (e := e.withWords left) hfinal hsolved hdone).advance_eq
    · obtain ⟨n, e₁, hsound, hsteps⟩ :=
        (h.frame .running (e.generation + 1) e.history).exists_takes_steps haccepted hends
          e.settings.populationSize
      refine ⟨n, some e₁.currentRecord, e₁.record, hsound.frame _ _ _, hsteps.source_eq,
        fun left => ?_⟩
      exact (Advanced.made (e := e.withWords (n + left)) hfinal hsolved (Nat.lt_of_not_le hdone)
        (hsteps.run_eq left)).advance_eq

/-- Calls end. -/
theorem Sound.exists_takes_advances (h : e.Sound settings problem)
    (haccepted : Accepted settings problem) (hends : IndicesEnd e.supply.source) (k : Nat) :
    ∃ n e', e'.Sound settings problem ∧ Takes (Evolution.advances k) e n e' := by
  refine h.exists_takes_iterate (f := Evolution.advances 1) ?_ (fun _ => rfl) ?_ hends k
  · intro e he hends
    obtain ⟨n, record, e', hsound, hsource, hcall⟩ := he.exists_takes_advance haccepted hends
    exact ⟨n, e', hsound, hsource, fun left => advances_one (hcall left)⟩
  · intro k e
    rw [Nat.add_comm, advances_add]

/-! ## Starts -/

variable {source : σ} {left : Nat}

/-- More words give the same constants and the same first programs. -/
theorem exists_populate_eq {generator : Except Fault Generator}
    (hcapacity : ∀ g, generator = .ok g → 0 < g.buffer.capacity) {bindings : Bindings}
    {programs : Array Program} {fitness : Array Float} {supply' : Supply σ}
    (h : populate generator settings problem ⟨source, left⟩ =
      .ok (bindings, programs, fitness, supply')) :
    ∃ n, left = n + supply'.left ∧ supply'.source = drop n source ∧
      ∀ left, populate generator settings problem ⟨source, n + left⟩ =
        .ok (bindings, programs, fitness, ⟨drop n source, left⟩) := by
  obtain ⟨g, drawn, hg, hsample, hroom, hgenerate, hscore⟩ := populate_eq_ok_iff.mp h
  obtain ⟨m, hm, hsource₁, hsampled⟩ := (Bindings.settles_sample problem).exists_run_eq hsample
  obtain ⟨n, hn, hsource₂, hgenerated⟩ :=
    (Generator.settles_generateMany _ (hcapacity g hg) #[]).exists_run_eq hgenerate
  simp only at hm hsource₁ hsampled
  rw [hsource₁] at hsource₂ hgenerated
  refine ⟨m + n, by omega, by rw [hsource₂, WordSource.drop_add], fun left => ?_⟩
  rw [Nat.add_assoc, WordSource.drop_add]
  exact populate_eq_ok_iff.mpr
    ⟨g, _, hg, hsampled (n + left), hroom, hgenerated left, hscore⟩

/-- **More words give the same start.** What a run has started with depends on the words that have
been taken for it, and on no others. -/
theorem exists_start_withWords (h : start settings problem ⟨source, left⟩ = .ok e) :
    ∃ n, left = n + e.supply.left ∧ e.supply.source = drop n source ∧
      ∀ left, start settings problem ⟨source, n + left⟩ = .ok (e.withWords left) := by
  obtain ⟨hcheck, hpos, hword, h⟩ := start_eq_ok_iff.mp h
  obtain ⟨bindings, population, supply', hpopulate, rfl⟩ := startFrom_eq_ok_iff.mp h
  have hcapacity : ∀ g, Generator.ofLimits settings.maxLength problem.terminalCount
      settings.depth = .ok g → 0 < g.buffer.capacity := by
    intro g hg
    obtain ⟨-, rfl⟩ := Generator.eq_fresh_of_ofLimits hg
    exact lt_of_lt_of_le (by decide) (Settings.of_check hcheck).le_maxLength
  obtain ⟨n, hn, hsource, hagain⟩ := exists_populate_eq hcapacity hpopulate
  refine ⟨n, hn, hsource, fun left => start_eq_ok_iff.mpr ⟨hcheck, hpos, hword, ?_⟩⟩
  refine startFrom_eq_ok_iff.mpr ⟨bindings, population, _, hagain left, ?_⟩
  rw [← hsource]
  rfl

/-! ## Whole runs -/

/-- A run from which calls lead to its end comes to no fault when it is run with reports. -/
theorem Rested.run_ne_fault {text : String} (hread : Problem.read text = .ok problem)
    {supply : Supply σ} (h : Rested settings problem supply e) {m : Nat} {final : Evolution σ}
    (hcalls : Evolution.advances m e = .ok final) (hfinal : final.phase.isFinal = true) {ω : Type}
    (reporter : Reporter ω) (out : ω) (fault : Fault) :
    (e.run reporter out).1 ≠ .error (.fault fault) := by
  intro hanswer
  obtain ⟨n, hran⟩ := h.ran hread reporter out
  generalize (e.run reporter out).1 = answer, (e.run reporter out).2.1 = e',
    e.calls reporter out = calls at hran hanswer
  cases hran with
  | starved _ hmakes hadvance =>
    obtain ⟨r, hr⟩ := exists_advance_of_isFinal hcalls hfinal hmakes.advances
    cases hr.symm.trans hadvance
  | _ => cases hanswer

/-- **A run that has started comes to its end**, if the draws of indices end on its stream. There is
a number of words such that the same run starts with as many or more, one call more than there are
generations leads it to its end, and there is a result; and however it is run with reports, it gives
this result, unless a report is refused. -/
theorem exists_enough_words {text : String} (hread : Problem.read text = .ok problem)
    (hends : IndicesEnd source) (hstart : start settings problem ⟨source, left⟩ = .ok e) :
    ∃ words, ∀ left, words ≤ left → ∃ e₀ final r,
      start settings problem ⟨source, left⟩ = .ok e₀ ∧
      e₀ = { e with supply := e₀.supply } ∧
      Evolution.advances (settings.generations + 1) e₀ = .ok final ∧
      final.phase.isFinal = true ∧ final.result = .ok r ∧
      ∀ (ω : Type) (reporter : Reporter ω) (out : ω), (e₀.run reporter out).1 = .ok r ∨
        ∃ error, (e₀.run reporter out).1 = .error (.write error) := by
  obtain ⟨m, -, hsource, hstarts⟩ := exists_start_withWords hstart
  obtain ⟨haccepted, hsound⟩ := Reachable.sound hread (.rested (.start hstart))
  obtain ⟨n, e', hsound', -, hcalls⟩ := hsound.exists_takes_advances haccepted
    (hsource ▸ hends.drop m) (settings.generations + 1)
  refine ⟨m + n, fun left hle => ?_⟩
  obtain ⟨further, rfl⟩ := Nat.exists_eq_add_of_le hle
  have hagain := hstarts (n + further)
  have hrested := Rested.start hagain
  have hfinal : (e'.withWords further).phase.isFinal = true :=
    (hrested.advances_isFinal hread (Nat.lt_of_lt_of_le (Nat.lt_succ_self _)
      (Nat.le_add_left _ _))).of_eq_ok (hcalls further)
  obtain ⟨r, hr⟩ := (hsound'.withWords further).exists_result
  rw [← Nat.add_assoc] at hagain
  refine ⟨_, _, r, hagain, rfl, hcalls further, hfinal, hr, fun ω reporter out => ?_⟩
  rcases hanswer : ((e.withWords (n + further)).run reporter out).1 with error | r'
  · cases error with
    | settings cause =>
      obtain ⟨k, hran⟩ := hrested.ran hread reporter out
      rw [hanswer] at hran
      cases hran
    | write error => exact .inr ⟨error, rfl⟩
    | fault fault =>
      exact absurd hanswer (hrested.run_ne_fault hread (hcalls further) hfinal reporter out fault)
  · obtain ⟨hresult, -⟩ := run_of_eq_ok hread hrested (hcalls further) hfinal hr hanswer
    exact .inl (congrArg _ hresult)

/-- The words of the small run are those of such a stream. -/
example : IndicesEnd Sample.supply.source := Cycle.indicesEnd (i := 0) (by decide) (by decide)

end Evolution

end SymbolicRegression
