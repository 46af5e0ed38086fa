import SymbolicRegression.Proofs.Evolution.Recovery

set_option autoImplicit false
set_option relaxedAutoImplicit false

/-!
# When a run stops

Three of the parameters do not take part in breeding: the number of generations and the threshold
only decide when a run stops, and how the first programs are scored does not matter for what they
score. Two runs whose parameters differ in nothing else go through the same generations as long as
both go on.

A run is compared with one under other parameters by putting these in its place, together with the
phase that the other run is in: steps commute with that.

## Main definitions

* `SymbolicRegression.Settings.SameBreeding` — parameters that differ in these three at most.
* `SymbolicRegression.Evolution.retune` — a run under other parameters.

## Main results

* `SymbolicRegression.Evolution.steps_retune` — steps do not depend on the three parameters.
* `SymbolicRegression.Evolution.start_retune` — neither does the start.
* `SymbolicRegression.Evolution.Makes.twin`, `SymbolicRegression.Evolution.Makes.retune` — and
  neither do whole generations.
* `SymbolicRegression.Evolution.stopping_truncates` — the three parameters only cut a run short.
-/

namespace SymbolicRegression

/-! ## Parameters that do not take part in breeding -/

/-- The parameters differ at most in the number of generations, in the threshold, and in how the
first programs are scored. -/
def Settings.SameBreeding (s s' : Settings) : Prop :=
  ∃ generations solvedThreshold parallelEvaluation,
    s' = { s with generations, solvedThreshold, parallelEvaluation }

/-- Parameters differ from one another in the same. -/
theorem Settings.SameBreeding.symm {s s' : Settings} (h : s.SameBreeding s') :
    s'.SameBreeding s := by
  obtain ⟨generations, solvedThreshold, parallelEvaluation, rfl⟩ := h
  exact ⟨s.generations, s.solvedThreshold, s.parallelEvaluation, rfl⟩

namespace Evolution

variable {σ : Type}

/-- A run under other parameters and in another phase. -/
def retune (e : Evolution σ) (settings : Settings) (phase : Phase) : Evolution σ :=
  { e with settings, phase }

/-! ## Steps -/

section

variable {settings : Settings} {e e' : Evolution σ}

/-- Settling a child does not depend on the three parameters. -/
theorem settle_retune (hsame : e.settings.SameBreeding settings) {slot : Nat} {child : Program}
    {fitness : Float} (h : e.settle slot child fitness = .ok e') (phase : Phase) :
    (e.retune settings phase).settle slot child fitness = .ok (e'.retune settings phase) := by
  have helitism : settings.elitism = e.settings.elitism := by
    obtain ⟨_, _, _, rfl⟩ := hsame
    rfl
  have hframe := settle_frame h
  refine (settle_congr (f := e.retune settings phase) h rfl rfl helitism).trans (congrArg _ ?_)
  rw [hframe]
  rfl

variable [WordSource σ]

/-- **A step does not depend on the three parameters.** -/
theorem step_retune (hsame : e.settings.SameBreeding settings) (h : e.step = .ok e')
    (phase : Phase) : (e.retune settings phase).step = .ok (e'.retune settings phase) := by
  simp only [step, bind_eq_ok_iff] at h ⊢
  obtain ⟨⟨child, supply⟩, hbreed, ⟨fitness, scorer⟩, hscore, ⟨slot, supply'⟩, hslot, h⟩ := h
  have hsettle := settle_retune (e := { e with scorer, supply := supply' }) hsame h phase
  obtain ⟨generations, solvedThreshold, parallelEvaluation, rfl⟩ := hsame
  exact ⟨(child, supply), hbreed, (fitness, scorer), hscore, (slot, supply'), hslot, hsettle⟩

/-- **Any number of steps do not depend on the three parameters.** -/
theorem steps_retune {n : Nat} (hsame : e.settings.SameBreeding settings) (h : steps n e = .ok e')
    (phase : Phase) : steps n (e.retune settings phase) = .ok (e'.retune settings phase) := by
  induction n generalizing e with
  | zero =>
    obtain rfl := Except.ok.inj h
    rfl
  | succ n ih =>
    obtain ⟨e₁, hstep, hrest⟩ := bind_eq_ok_iff.mp h
    have hsettings : e₁.settings = e.settings := by rw [step_frame hstep]
    exact bind_eq_ok_iff.mpr
      ⟨e₁.retune settings phase, step_retune hsame hstep phase, ih (hsettings ▸ hsame) hrest⟩

/-! ## Generations -/

/-- **A generation does not depend on the three parameters**, if under the other ones a run that
stands there makes one, too. -/
theorem advance_retune (hsame : e.settings.SameBreeding settings) {record : GenerationRecord}
    (h : e.advance = .ok (some record, e')) {phase : Phase} (hphase : phase.isFinal = false)
    (hunsolved : (e.retune settings phase).isSolved = .ok false)
    (hleft : e.generation < settings.generations) :
    (e.retune settings phase).advance = .ok (some record, e'.retune settings e'.phase) := by
  cases advance_cases h with
  | @made e₁ _ _ _ hsteps =>
    have hopened := steps_retune
      (e := { e with phase := .running, generation := e.generation + 1 }) hsame hsteps .running
    have hphase₁ : e₁.phase = .running := (steps_bookkeeping hsteps).2.1
    have hsize : settings.populationSize = e.settings.populationSize := by
      obtain ⟨_, _, _, rfl⟩ := hsame
      rfl
    rw [← hsize] at hopened
    rw [show e₁.record.phase = .running from hphase₁]
    exact (Advanced.made (e := e.retune settings phase) hphase hunsolved hleft hopened).advance_eq

/-! ## The start -/

variable {problem : Problem} {supply : Supply σ}

/-- The first programs do not depend on the three parameters, also if they are scored in turn in one
run and side by side in the other. -/
theorem populate_of_sameBreeding (hrun : problem.Runnable) {settings settings' : Settings}
    (hsame : settings.SameBreeding settings') {generator : Except Fault Generator}
    {parts : Bindings × Array Program × Array Float × Supply σ}
    (h : populate generator settings problem supply = .ok parts) :
    populate generator settings' problem supply = .ok parts := by
  obtain ⟨generations, solvedThreshold, parallelEvaluation, rfl⟩ := hsame
  obtain ⟨bindings, programs, fitness, supply'⟩ := parts
  obtain ⟨g, drawn, hgenerator, hsample, hroom, hgenerate, hscore⟩ := populate_eq_ok_iff.mp h
  refine populate_eq_ok_iff.mpr ⟨g, drawn, hgenerator, hsample, hroom, hgenerate, ?_⟩
  have hsize : ∀ c ∈ problem.cases, c.inputs.size = bindings.varCount :=
    (Bindings.of_sample hsample).1 ▸ hrun.size_inputs
  rw [scorePopulation_eq _ _ _ _ hsize] at hscore ⊢
  exact hscore

/-- **A run starts in the same way under other such parameters**, if these are in range. -/
theorem start_retune (hrun : problem.Runnable) {settings settings' : Settings}
    (hsame : settings.SameBreeding settings') (hcheck : settings'.check = .ok ())
    (h : start settings problem supply = .ok e) :
    start settings' problem supply = .ok (e.retune settings' e.phase) := by
  obtain ⟨-, hpos, hword, h⟩ := start_eq_ok_iff.mp h
  obtain ⟨bindings, population, supply', hpopulate, rfl⟩ := startFrom_eq_ok_iff.mp h
  have hagain := populate_of_sameBreeding hrun hsame hpopulate
  obtain ⟨generations, solvedThreshold, parallelEvaluation, rfl⟩ := hsame
  exact start_eq_ok_iff.mpr ⟨hcheck, hpos, hword,
    startFrom_eq_ok_iff.mpr ⟨bindings, population, supply', hagain, rfl⟩⟩

end

/-! ## Runs under either parameters -/

variable [WordSource σ] {e e' f f' : Evolution σ} {settings settings' : Settings}
  {events events' : List Event}

/-- **Two runs that stand at the same place make the same generations**, each under its own
parameters and as long as both make some. -/
theorem Makes.twin (h : Makes e events f) (h' : Makes e' events' f')
    (hlength : events'.length = events.length) (hsame : e.settings.SameBreeding settings')
    (htwin : e' = e.retune settings' e'.phase) :
    events' = events ∧ f' = f.retune settings' f'.phase := by
  induction h generalizing e' events' with
  | done =>
    obtain rfl := List.eq_nil_of_length_eq_zero hlength
    cases h'
    exact ⟨rfl, htwin⟩
  | @next e e₁ _ record text events hadvance hformula _ ih =>
    cases h' with
    | done => cases hlength
    | @next _ e₁' _ record' text' events' hadvance' hformula' hrest' =>
      have hother : e'.advance = .ok (some record, e₁.retune settings' e₁.phase) := by
        rw [htwin] at hadvance' ⊢
        cases advance_cases hadvance' with
        | made hphase hunsolved hleft => exact advance_retune hsame hadvance hphase hunsolved hleft
      obtain ⟨hrecord, rfl⟩ := Prod.mk.inj (Except.ok.inj (hother.symm.trans hadvance'))
      obtain rfl := Option.some.inj hrecord
      obtain rfl := Except.ok.inj (hformula.symm.trans hformula')
      obtain ⟨rfl, hend⟩ := ih hrest' (Nat.succ_inj.mp hlength)
        (settings_of_advance hadvance ▸ hsame) rfl
      exact ⟨rfl, hend⟩

/-- **The generations of a run are made under other such parameters, too**, if these have the same
threshold and allow for as many. -/
theorem Makes.retune (h : Makes e events f) (hsame : e.settings.SameBreeding settings')
    (hthreshold : settings'.solvedThreshold = e.settings.solvedThreshold)
    (hleft : f.generation ≤ settings'.generations) {phase : Phase}
    (hphase : phase.isFinal = false) : ∃ phase', phase'.isFinal = false ∧
      Makes (e.retune settings' phase) events (f.retune settings' phase') := by
  induction h generalizing phase with
  | done => exact ⟨phase, hphase, .done⟩
  | @next e e₁ f record text events hadvance hformula hrest ih =>
    obtain ⟨hgeneration, hphase₁, -⟩ := of_advance_some hadvance
    have hsettings := settings_of_advance hadvance
    have hbefore : e.generation < settings'.generations := by
      have hcount := hrest.generation_eq
      omega
    have hunsolved : (e.retune settings' phase).isSolved = .ok false := by
      cases advance_cases hadvance with
      | made _ hunsolved =>
        rw [isSolved] at hunsolved ⊢
        rw [← hunsolved, ← hthreshold]
        rfl
    have hgoing : e₁.phase.isFinal = false := by
      rw [hphase₁]
      rfl
    obtain ⟨phase', hphase', hmakes⟩ := ih (hsettings ▸ hsame)
      (hthreshold.trans (congrArg Settings.solvedThreshold hsettings.symm)) hleft hgoing
    exact ⟨phase', hphase',
      .next (advance_retune hsame hadvance hphase hunsolved hbefore) hformula hmakes⟩

variable {problem : Problem} {supply : Supply σ} {text : String}

/-- **A run under other such parameters that has made at least as many generations has passed
through the same state.** -/
theorem Rested.exists_twin (hread : Problem.read text = .ok problem)
    (hsame : settings.SameBreeding settings') (h : Rested settings problem supply e)
    (h' : Rested settings' problem supply e') (hle : e.generation ≤ e'.generation) :
    ∃ phase events s, Makes (e.retune settings' phase) events s ∧
      events.length = e'.generation - e.generation ∧ e' = { s with phase := e'.phase } := by
  obtain ⟨e₀, events, s, hstart, hmakes, hlength, heq, -⟩ := h.exists_makes hread
  obtain ⟨e₀', events', s', hstart', hmakes', hlength', heq', -⟩ := h'.exists_makes hread
  have htwin := start_retune (Problem.runnable_of_read hread) hsame h'.check_eq_ok hstart
  obtain rfl := Except.ok.inj (htwin.symm.trans hstart')
  -- the generations of the longer run, as many of them as the shorter one has made, and the rest
  rw [← List.take_append_drop events.length events'] at hmakes'
  obtain ⟨mid, hfirst, hrest⟩ := hmakes'.of_append
  have hcount : (events'.take events.length).length = events.length := by
    rw [List.length_take]
    omega
  obtain ⟨-, hmid⟩ := hmakes.twin hfirst hcount (settings_of_start hstart ▸ hsame) rfl
  refine ⟨mid.phase, events'.drop events.length, s', ?_, ?_, heq'⟩
  · rw [heq]
    exact hmid ▸ hrest
  · rw [List.length_drop]
    omega

/-- **After equally many generations two runs agree**, up to their parameters and phases. -/
theorem Rested.eq_of_generation_eq (hread : Problem.read text = .ok problem)
    (hsame : settings.SameBreeding settings') (h : Rested settings problem supply e)
    (h' : Rested settings' problem supply e') (heq : e.generation = e'.generation) :
    e' = e.retune settings' e'.phase := by
  obtain ⟨phase, events, s, hrest, hlength, hend⟩ := h.exists_twin hread hsame h' heq.le
  obtain rfl : events = [] := List.eq_nil_of_length_eq_zero (by omega)
  cases hrest
  exact hend

/-- **The history of the run with fewer generations stands at the beginning of the other's.** -/
theorem Rested.history_of_le (hread : Problem.read text = .ok problem)
    (hsame : settings.SameBreeding settings') (h : Rested settings problem supply e)
    (h' : Rested settings' problem supply e') (hsize : e.history.size ≤ e'.history.size) :
    e.history.toList <+: e'.history.toList := by
  have hcount := (h.orderly hread).size_history
  have hcount' := (h'.orderly hread).size_history
  obtain ⟨phase, events, s, hrest, -, hend⟩ := h.exists_twin hread hsame h' (by omega)
  have hadded := history_of_advances hrest.advances
  rw [hend]
  exact hadded

/-- **A run that is solved is solved under other such parameters, too**, if these have the same
threshold and allow for as many generations. -/
theorem Rested.advances_solved (hread : Problem.read text = .ok problem)
    (hsame : settings.SameBreeding settings')
    (hthreshold : settings'.solvedThreshold = settings.solvedThreshold)
    (h : Rested settings problem supply e) (hsolved : e.phase = .solved)
    (hleft : e.generation ≤ settings'.generations) {e₀ : Evolution σ}
    (hstart : Evolution.start settings' problem supply = .ok e₀) :
    ∃ n, Evolution.advances n e₀ = .ok (e.retune settings' .solved) := by
  obtain ⟨e₁, events, s, hstart₁, hmakes, -, heq, -⟩ := h.exists_makes hread
  have htwin := start_retune (Problem.runnable_of_read hread) hsame
    (start_eq_ok_iff.mp hstart).1 hstart₁
  obtain rfl := Except.ok.inj (htwin.symm.trans hstart)
  have hsettings := settings_of_start hstart₁
  have hgoing : e₁.phase.isFinal = false := by
    obtain ⟨_, _, _, rfl⟩ := exists_start_eq hstart₁
    rfl
  have hleft' : s.generation ≤ settings'.generations := by
    rw [heq] at hleft
    exact hleft
  obtain ⟨phase, hphase, hmade⟩ := hmakes.retune (hsettings ▸ hsame)
    (hthreshold.trans (congrArg Settings.solvedThreshold hsettings.symm)) hleft' hgoing
  have hpassed : (s.retune settings' phase).isSolved = .ok true := by
    have hpassed := (h.orderly hread).solved hsolved
    have hsound := h.sound hread
    rw [isSolved, hsound.settings_eq, ← hthreshold, heq] at hpassed
    exact hpassed
  have hend : (s.retune settings' phase).advance = .ok (none, e.retune settings' .solved) := by
    rw [heq]
    exact (Advanced.solved (e := s.retune settings' phase) hphase hpassed).advance_eq
  exact ⟨events.length + 1, hmade.advances_none hend⟩

/-- **Stopping only cuts a run short.** Let two runs on one problem and one supply differ at most in
the number of generations, the threshold, and how the first programs are scored. If the parameters
of both are in range, both start in the same way. The shorter of their histories always stands at
the beginning of the longer one, and after equally many generations they agree in everything but the
parameters and the phase: population, fitness, best slot, constants, and words left.

If the thresholds are equal and one run ends solved, then the other run, if it may make as many
generations, has no other result; and it has this one, if its reporter takes all events. -/
theorem stopping_truncates (hread : Problem.read text = .ok problem)
    (hsame : settings.SameBreeding settings') :
    (settings'.check = .ok () → ∀ e : Evolution σ, start settings problem supply = .ok e →
      start settings' problem supply = .ok { e with settings := settings' }) ∧
    (∀ e e' : Evolution σ, Rested settings problem supply e → Rested settings' problem supply e' →
      (e.history.size ≤ e'.history.size → e.history.toList <+: e'.history.toList) ∧
      (e'.history.size ≤ e.history.size → e'.history.toList <+: e.history.toList) ∧
      (e.generation = e'.generation → e' = { e with settings := settings', phase := e'.phase })) ∧
    (settings'.solvedThreshold = settings.solvedThreshold →
      ∀ (e e' : Evolution σ) (ω ω' : Type) (reporter : Reporter ω) (reporter' : Reporter ω')
        (out : ω) (out' : ω') (r : Result), Rested settings problem supply e →
        Rested settings' problem supply e' → (e.run reporter out).1 = .ok r →
        r.outcome = .solved → r.generations ≤ settings'.generations →
        (∀ r', (e'.run reporter' out').1 = .ok r' → r' = r) ∧
        (reporter'.TakesAll → (e'.run reporter' out').1 = .ok r)) := by
  refine ⟨?_, ?_, ?_⟩
  · intro hcheck e hstart
    exact start_retune (Problem.runnable_of_read hread) hsame hcheck hstart
  · intro e e' h h'
    exact ⟨h.history_of_le hread hsame h', h'.history_of_le hread hsame.symm h,
      h.eq_of_generation_eq hread hsame h'⟩
  · intro hthreshold e e' ω ω' reporter reporter' out out' r h h' hr hsolved hleft
    -- the end of the solved run
    obtain ⟨n, hran⟩ := h.ran hread reporter out
    obtain ⟨hfinal, hresult⟩ := hran.of_eq_ok hr
    have hend := h.run reporter out
    generalize (e.run reporter out).2.1 = f at hfinal hresult hend
    have hsound := hend.sound hread
    obtain ⟨r₁, hr₁, houtcome, hgenerations, -⟩ :=
      (hend.orderly hread).result_of_isFinal hsound hfinal
    obtain rfl := Except.ok.inj (hr₁.symm.trans hresult)
    -- the end of the other run
    obtain ⟨e₀, m, hstart, hcalls⟩ := h'.exists_advances
    obtain ⟨k, hends⟩ := hend.advances_solved hread hsame hthreshold (houtcome.mp hsolved)
      (hgenerations ▸ hleft) hstart
    obtain ⟨j, hcalls'⟩ := exists_advances_of_isFinal hends rfl hcalls
    have hresult' : (f.retune settings' .solved).result = .ok r₁ := by
      rw [← hresult, result, result, isSolved, isSolved, hsound.settings_eq, ← hthreshold]
      rfl
    exact ⟨fun r' hr' => (run_of_eq_ok hread h' hcalls' rfl hresult' hr').1,
      fun htakes => (run_of_takesAll hread h' hcalls' rfl hresult' htakes out').1⟩

end Evolution

/-- Parameters of a small run that is solved by its only generation. -/
def Sample.solvable : Settings := { Sample.settings with depth := 2, solvedThreshold := -5.5 }

namespace Evolution

open Sample (silent solvable)

set_option maxRecDepth 10000 in
/-- With more generations and its first programs scored in turn the small run has the same result,
and with a greater threshold its history is longer. -/
theorem stopping_truncates_sample : ∃ problem e₀ e₁ e r, Problem.read Sample.text = .ok problem ∧
    start solvable problem Sample.supply = .ok e₀ ∧
    (e₀.run silent ()).1 = .ok r ∧ r.outcome = .solved ∧ r.generations = 1 ∧
    start { solvable with generations := 3, parallelEvaluation := false } problem Sample.supply =
      .ok e₁ ∧
    (e₁.run silent ()).1 = .ok r ∧
    Rested { solvable with generations := 2, solvedThreshold := -1.0 } problem Sample.supply e ∧
    e.history.size = 3 ∧ (e₀.run silent ()).2.1.history.toList <+: e.history.toList := by
  obtain ⟨problem, e₀, e₀', hread, hstart, hcalls, htest⟩ :=
    Sample.exists_called solvable 0
      (fun e => match (e.run silent ()).1 with
        | .ok r => r.outcome == .solved && r.generations == 1 &&
          (e.run silent ()).2.1.history.size == 2
        | .error _ => false) (by decide +kernel)
  obtain rfl := Except.ok.inj hcalls
  obtain ⟨problem', e', e, hread', hstart', hcalls', hsize'⟩ :=
    Sample.exists_called { solvable with generations := 2, solvedThreshold := -1.0 } 3
      (fun e => e.history.size == 3) (by decide +kernel)
  obtain rfl := Except.ok.inj (hread.symm.trans hread')
  split at htest
  · rename_i r hr
    obtain ⟨⟨houtcome, hgenerations⟩, hsize⟩ : (r.outcome = .solved ∧ r.generations = 1) ∧
        (e₀.run silent ()).2.1.history.size = 2 := by simpa using htest
    have hsize' : e.history.size = 3 := by simpa using hsize'
    have hrested := Rested.start hstart
    have hrested' := (Rested.start hstart').advances hcalls'
    have hlater : solvable.SameBreeding
        { solvable with generations := 3, parallelEvaluation := false } := ⟨_, _, _, rfl⟩
    have hgreater : solvable.SameBreeding
        { solvable with generations := 2, solvedThreshold := -1.0 } := ⟨_, _, _, rfl⟩
    obtain ⟨hstarts, -, hsolved⟩ :=
      @stopping_truncates Cycle _ _ _ problem Sample.supply _ hread hlater
    obtain ⟨-, hhistory, -⟩ :=
      @stopping_truncates Cycle _ _ _ problem Sample.supply _ hread hgreater
    have hstart₁ := hstarts (start_eq_ok_iff.mp hstart).1 e₀ hstart
    have hagain := hsolved rfl e₀ _ _ _ silent silent () () r hrested (.start hstart₁) hr houtcome
      (by rw [hgenerations]; decide)
    have hlonger := hhistory _ e (hrested.run silent ()) hrested'
    exact ⟨problem, e₀, _, e, r, hread, hstart, hr, houtcome, hgenerations, hstart₁,
      hagain.2 fun _ _ => rfl, hrested', hsize', hlonger.1 (by omega)⟩
  · cases htest

end Evolution

end SymbolicRegression
