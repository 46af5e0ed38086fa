import SymbolicRegression.Proofs.Breeding.Bounds
import SymbolicRegression.Proofs.Evolution.Reporting

set_option autoImplicit false
set_option relaxedAutoImplicit false

/-!
# Runs on problems that are read are safe

The checks that a run relies on are made in two places, by the reader of case files and by the check
of the parameters. Together they are enough: a run is refused only for its parameters, and when it
goes on nothing that it draws, looks up, subtracts or counts is out of its domain. What is left are
the lack of random words and rows that are too long to be stored.

## Main definitions

* `SymbolicRegression.Fault.OfResources` — the faults that no check can rule out.
* `SymbolicRegression.Generator.Serves` — a generator of a run, before and after it is used.
* `SymbolicRegression.Evolution.InBounds` — nothing that a step looks at lies outside.

## Main results

* `SymbolicRegression.Evolution.start_eq_error` — why a run does not start.
* `SymbolicRegression.Evolution.Reachable.inBounds` — reachable runs look at nothing outside.
* `SymbolicRegression.Evolution.runs_are_safe` — starts, steps, calls and results together.
-/

namespace SymbolicRegression

/-! ## Faults -/

/-- The faults that no check can rule out for a run with the given parameters. Only two rows are as
long as the parameters say, the buffer for growth and the row of the first programs. -/
inductive Fault.OfResources (settings : Settings) : Fault → Prop
  /-- The random words have run out. -/
  | words : OfResources settings .supplyExhausted
  /-- The buffer for the longest programs takes more bytes than there can be. -/
  | buffer (h : Storage.limit < 1 * settings.maxLength) :
      OfResources settings (.rowTooLong 1 settings.maxLength)
  /-- The row of the programs takes more bytes than there can be. -/
  | programs (h : Storage.limit < Program.entryBytes * settings.populationSize) :
      OfResources settings (.rowTooLong Program.entryBytes settings.populationSize)

/-- A row is refused only if it is too long. -/
theorem Storage.of_reserve_eq_error {width count : Nat} {fault : Fault}
    (h : reserve width count = .error fault) :
    limit < width * count ∧ fault = .rowTooLong width count := by
  unfold reserve at h
  split at h
  · cases h
  · cases h
    exact ⟨by omega, rfl⟩

/-- A computation that can only lack words has no other fault. -/
theorem Answers.ofResources {α : Type} {x : Except Fault α} {P : α → Prop} {fault : Fault}
    {settings : Settings} (h : Answers x P) (hx : x = .error fault) : fault.OfResources settings :=
  h.of_eq_error hx ▸ .words

variable {σ : Type} [WordSource σ]

/-- A table for a problem that can be run can always be sampled. -/
theorem Bindings.yields_sample {p : Problem} (hrun : p.Runnable) :
    Draw.Yields (sample p : Draw σ Bindings) fun _ => True := by
  have hle := hrun.terminalCount_le
  have hcount : Answers p.countTerminals (· = p.terminalCount) := by
    rw [Problem.countTerminals, if_pos (lt_of_le_of_lt hle (by decide))]
    exact rfl
  have hroom : Answers (Storage.reserve 8 p.terminalCount) fun _ => True := by
    have hlimit : 8 * 110 ≤ Storage.limit := by decide
    rw [Storage.reserve, if_pos (by omega)]
    exact trivial
  refine (Draw.Yields.lift hcount).bind ?_
  rintro terminals rfl
  refine (Draw.Yields.lift hroom).bind fun _ _ => ?_
  refine (Draw.Yields.mapM fun q _ => q.yields_drawConstant).bind fun _ _ => .pure trivial

/-- The generator of a run lacks nothing but room for its buffer. -/
theorem Generator.ofResources_of_ofLimits {settings : Settings} {terminals : Nat} {fault : Fault}
    (hpos : 0 < terminals) (hle : terminals ≤ 110)
    (h : ofLimits settings.maxLength terminals settings.depth = .error fault) :
    fault.OfResources settings := by
  have hrange : ¬ (terminals = 0 ∨ Operator.firstOpcode.toNat < terminals) := by
    have hfirst : Operator.firstOpcode.toNat = 110 := by decide
    omega
  unfold ofLimits at h
  simp only [hrange, if_false] at h
  rcases bind_eq_error_iff.mp h with h | ⟨_, -, h⟩
  · obtain ⟨hlong, rfl⟩ := Storage.of_reserve_eq_error h
    exact .buffer hlong
  · cases h

/-- A formula has as many nodes as opcodes. -/
theorem Program.IsComplete.nodeCount_eq {p : Program} (h : p.IsComplete) :
    p.nodeCount = p.length := by
  rw [nodeCount, (h : subtreeEnd p.code 0 = _)]
  rfl

/-- The node counts of formulas add up to the number of their opcodes. -/
theorem Program.foldl_nodeCount {programs : List Program} (h : ∀ p ∈ programs, p.IsComplete)
    (n : Nat) : programs.foldl (fun n p => n + p.nodeCount) n =
      n + (programs.map Program.length).sum := by
  induction programs generalizing n with
  | nil => rfl
  | cons p programs ih =>
    rw [List.foldl_cons, ih (fun q hq => h q (List.mem_cons_of_mem _ hq)), List.map_cons,
      List.sum_cons, (h p (List.mem_cons_self ..)).nodeCount_eq, Nat.add_assoc]

/-- The generator of a run, before it is used and after it has made some programs. -/
structure Generator.Serves (g : Generator) (settings : Settings) (problem : Problem) : Prop where
  /-- Its buffer holds the longest programs allowed. -/
  capacity_eq : g.buffer.capacity = settings.maxLength
  /-- It draws among the terminals of the problem. -/
  terminals_eq : g.terminals = problem.terminalCount
  /-- The number of its slots is a word, and so is the slot after any of them. -/
  capacity_le : g.buffer.capacity ≤ Storage.limit
  /-- It has written no slot past its buffer. -/
  within : g.buffer.Within

/-- The generator that a run starts with serves it. -/
theorem Generator.serves_of_ofLimits {settings : Settings} {problem : Problem} {g : Generator}
    (h : ofLimits settings.maxLength problem.terminalCount settings.depth = .ok g) :
    g.Serves settings problem := by
  obtain ⟨hroom, rfl⟩ := eq_fresh_of_ofLimits h
  exact ⟨rfl, rfl, hroom, Nat.zero_le _⟩

/-- A generator of a run makes programs that can be stored, and serves on. -/
theorem Generator.Serves.yields_generate {settings : Settings} {problem : Problem} {g : Generator}
    (hrun : problem.Runnable) (h : g.Serves settings problem) :
    Draw.Yields (g.generate : Draw σ (Program × Generator)) fun r =>
      r.1.length ≤ settings.maxLength ∧ r.2.Serves settings problem := by
  refine (yields_generate_within (h.terminals_eq ▸ hrun.terminalCount_pos) h.within).mono ?_
  rintro ⟨p, g'⟩ ⟨hlength, hwithin, hcapacity, hterminals⟩
  exact ⟨h.capacity_eq ▸ hlength, hcapacity.trans h.capacity_eq, hterminals.trans h.terminals_eq,
    hcapacity.trans_le h.capacity_le, hwithin⟩

namespace Settings

/-- Parameters are never refused for the lack of terminals. -/
theorem check_ne_noTerminals (s : Settings) : s.check ≠ .error .noTerminals := by
  have hprobability : ∀ field x, checkProbability field x ≠ .error .noTerminals := by
    intro field x
    unfold checkProbability
    split <;> simp
  intro h
  unfold check at h
  simp only at h
  split at h; · cases h
  split at h; · cases h
  split at h; · cases h
  split at h; · cases h
  rcases bind_eq_error_iff.mp h with h | ⟨_, -, h⟩
  · exact hprobability _ _ h
  rcases bind_eq_error_iff.mp h with h | ⟨_, -, h⟩
  · exact hprobability _ _ h
  split at h <;> cases h

end Settings

namespace Evolution

variable {settings : Settings} {problem : Problem} {supply : Supply σ} {e : Evolution σ}

/-! ## Starts -/

/-- The first programs of a problem that can be run lack nothing but words and room. -/
theorem ofResources_of_populate {fault : Fault} (hrun : problem.Runnable)
    (h : populate (Generator.ofLimits settings.maxLength problem.terminalCount settings.depth)
      settings problem supply = .error fault) : fault.OfResources settings := by
  rcases bind_eq_error_iff.mp h with h | ⟨⟨bindings, s₁⟩, hsample, h⟩
  · exact (Bindings.yields_sample hrun supply).ofResources h
  rcases bind_eq_error_iff.mp h with h | ⟨generator, hgenerator, h⟩
  · exact Generator.ofResources_of_ofLimits hrun.terminalCount_pos hrun.terminalCount_le h
  obtain ⟨-, rfl⟩ := Generator.eq_fresh_of_ofLimits hgenerator
  rcases bind_eq_error_iff.mp h with h | ⟨_, -, h⟩
  · obtain ⟨hlong, rfl⟩ := Storage.of_reserve_eq_error h
    exact .programs hlong
  rcases bind_eq_error_iff.mp h with h | ⟨⟨programs, s₂⟩, -, h⟩
  · exact (Generator.yields_generateMany hrun.terminalCount_pos hrun.terminalCount_le
      settings.populationSize _ rfl rfl #[] (by simp) s₁).ofResources h
  rcases bind_eq_error_iff.mp h with h | ⟨_, -, h⟩
  · obtain ⟨hvarCount, -, -⟩ := Bindings.of_sample hsample
    rw [scorePopulation_eq _ _ _ _ (hvarCount ▸ hrun.size_inputs)] at h
    cases h
  · cases h

/-- **Why a run does not start**: its parameters are refused, with the error of their check, or
it lacks words or room. -/
theorem start_eq_error {error : EvolutionError} (hrun : problem.Runnable)
    (h : start settings problem supply = .error error) :
    (∃ cause, settings.check = .error cause ∧ error = .settings cause) ∨
      settings.check = .ok () ∧ ∃ fault, error = .fault fault ∧ fault.OfResources settings := by
  cases hcheck : settings.check with
  | error cause =>
    rw [start, hcheck] at h
    exact .inl ⟨cause, rfl, (Except.error.inj h).symm⟩
  | ok _ =>
    have hword := lt_of_le_of_lt hrun.terminalCount_le (show 110 < UInt64.size by decide)
    rw [start_eq_startFrom hcheck hrun.terminalCount_pos hword] at h
    obtain ⟨fault, hpopulate, rfl⟩ :=
      of_startFrom_eq_error (Settings.of_check hcheck).populationSize_pos h
    exact .inr ⟨rfl, fault, rfl, ofResources_of_populate hrun hpopulate⟩

/-- A run is refused for its parameters if their check refuses them, with the same error. -/
theorem start_eq_settings_error_iff {cause : SettingsError} (hrun : problem.Runnable) :
    start settings problem supply = .error (.settings cause) ↔ settings.check = .error cause := by
  constructor
  · intro h
    rcases start_eq_error hrun h with ⟨cause', hcheck, hcause⟩ | ⟨-, fault, hfault, -⟩
    · cases hcause
      exact hcheck
    · cases hfault
  · intro hcheck
    rw [start, hcheck]
    rfl

/-- The programs of a run that starts can be stored. -/
theorem maxLength_le_of_start (h : start settings problem supply = .ok e) :
    settings.maxLength ≤ Storage.limit := by
  obtain ⟨-, -, -, h⟩ := start_eq_ok_iff.mp h
  obtain ⟨_, _, _, hpopulate, -⟩ := startFrom_eq_ok_iff.mp h
  obtain ⟨_, _, hgenerator, -⟩ := populate_eq_ok_iff.mp hpopulate
  exact (Generator.eq_fresh_of_ofLimits hgenerator).1

/-! ## Steps -/

/-- **Nothing that a step looks at lies outside**, so the answers that some lookups and differences
have outside their domain play no part in a run. -/
structure InBounds (e : Evolution σ) : Prop where
  /-- No more generations are counted than are asked for. -/
  generation_le : e.generation ≤ e.settings.generations
  /-- The best slot is a slot. -/
  best_lt : e.best < e.population.size
  /-- There are slots to draw from, and whoever enters a tournament is one of them. -/
  entrants_lt : Draw.Yields
    (entrants e.population.fitness.size e.settings.tournamentSize : Draw σ (List Nat))
    fun slots => ∀ slot ∈ slots,
      slot < e.population.fitness.size ∧ slot < e.population.programs.size
  /-- When all slots are looked through after a child is put into one, the best one is a slot. -/
  rescanned_lt : ∀ slot child fitness,
    (e.population.put slot child fitness).bestIndex < e.population.size
  /-- Crossover has a probability. -/
  crossover : 0.0 ≤ e.settings.crossoverProbability ∧ e.settings.crossoverProbability ≤ 1.0
  /-- Mutation has a probability. -/
  mutation : 0.0 ≤ e.settings.mutationProbability ∧ e.settings.mutationProbability ≤ 1.0
  /-- There are terminals to draw from, and an opcode for each. -/
  terminals : 1 ≤ e.problem.terminalCount ∧ e.problem.terminalCount ≤ 110
  /-- The scorer is given one input for each variable. -/
  inputs : ∀ c ∈ e.scorer.cases, c.inputs.size = e.scorer.bindings.varCount
  /-- Whichever programs are crossed, the places drawn lie in order and inside both. -/
  sites : ∀ p₁ ∈ e.population.programs, ∀ p₂ ∈ e.population.programs,
    Draw.Yields (chooseSites p₁ p₂ : Draw σ Sites) (Sites.Inside p₁ p₂)
  /-- Wherever the end of a subtree is searched for, the search stays inside the program and what
  it counts are words. -/
  searches : ∀ p ∈ e.population.programs, ∀ start ≤ p.length, ∀ rest awaited offset,
    Searching p.code start rest awaited offset →
      offset ≤ p.length ∧ awaited ≤ p.length + 1 ∧ p.length + 1 < UInt64.size
  /-- The sum of which the mean size is taken is the number of opcodes that are stored. -/
  sizes : e.population.programs.foldl (fun n p => n + p.nodeCount) 0 =
    (e.population.programs.toList.map Program.length).sum

/-- A reachable run counts no more generations than are asked for, also within a generation. -/
theorem Reachable.generation_le {text : String} (hread : Problem.read text = .ok problem)
    (h : Reachable settings problem supply e) : e.generation ≤ e.settings.generations := by
  have hsettings : e.settings = settings := (h.sound hread).2.settings_eq
  cases h with
  | rested h => exact hsettings ▸ (h.orderly hread).generation_le
  | @midway e₀ _ _ h _ _ hleft _ hsteps =>
    have hkept : e.settings = e₀.settings := by rw [steps_frame hsteps]
    rw [(steps_bookkeeping hsteps).1, hkept]
    exact hleft

/-- The programs of a reachable run can be stored. -/
theorem Reachable.maxLength_le (h : Reachable settings problem supply e) :
    settings.maxLength ≤ Storage.limit := by
  have hrested : ∀ e, Rested settings problem supply e → settings.maxLength ≤ Storage.limit := by
    intro e h
    obtain ⟨e₀, -, hstart, -⟩ := h.exists_advances
    exact maxLength_le_of_start hstart
  cases h with
  | rested h => exact hrested _ h
  | midway h => exact hrested _ h

/-- **A reachable run looks at nothing outside.** -/
theorem Reachable.inBounds {text : String} (hread : Problem.read text = .ok problem)
    (h : Reachable settings problem supply e) : e.InBounds := by
  obtain ⟨haccepted, hsound⟩ := h.sound hread
  have hsize : 0 < e.population.fitness.size := Nat.zero_lt_of_lt hsound.best_lt
  have hroom := h.maxLength_le
  have hlimit : Storage.limit + 1 < UInt64.size := by decide
  have hfits : ∀ p ∈ e.population.programs, p.IsComplete ∧ p.length ≤ Storage.limit := by
    intro p hp
    obtain ⟨i, hi, rfl⟩ := Array.mem_iff_getElem.mp hp
    obtain ⟨hcomplete, hlength, -⟩ := hsound.fits i hi
    exact ⟨hcomplete, hlength.trans hroom⟩
  constructor
  case generation_le => exact h.generation_le hread
  case best_lt => exact lt_of_lt_of_eq hsound.best_lt e.population.size_fitness
  case entrants_lt =>
    refine (yields_entrants hsize _).mono fun slots ⟨_, hslots⟩ slot hslot => ?_
    exact ⟨hslots slot hslot, e.population.size_fitness ▸ hslots slot hslot⟩
  case rescanned_lt =>
    intro slot child fitness
    have hput : (e.population.put slot child fitness).fitness.size = e.population.size := by
      rw [Population.put, Array.size_setIfInBounds, e.population.size_fitness, Population.size]
    exact hput ▸ bestSlot_lt (hput ▸ e.population.size_pos)
  case crossover => exact hsound.settings_eq ▸ haccepted.crossover
  case mutation => exact hsound.settings_eq ▸ haccepted.mutation
  case terminals =>
    rw [hsound.problem_eq]
    exact ⟨haccepted.runnable.terminalCount_pos, haccepted.runnable.terminalCount_le⟩
  case inputs => exact hsound.size_inputs haccepted.runnable
  case sites =>
    intro p₁ hp₁ p₂ hp₂
    exact yields_chooseSites_inside (hfits p₁ hp₁).1 (hfits p₂ hp₂).1 (hfits p₁ hp₁).2
      (hfits p₂ hp₂).2
  case searches =>
    intro p hp start hstart rest awaited offset hsearch
    have hbounded := hsearch.bounded hstart
    have hlength : p.code.length = p.length := rfl
    have := (hfits p hp).2
    omega
  case sizes =>
    rw [← Array.foldl_toList, Program.foldl_nodeCount, Nat.zero_add]
    exact fun p hp => (hfits p (Array.mem_toList_iff.mp hp)).1

/-! ## Calls -/

/-- **Runs on problems that are read are safe.**

A start fails for the parameters if their check does, with the same error; no other error of the
parameters, such as a lack of terminals, is left for it. Otherwise it lacks words at most, or room
for its buffer or for as many programs as asked for.
Growth writes no slot past its buffer. A step, from whatever state of a run, looks at nothing
outside, and besides that can only lack words, like every call; a run with reports also ends with
the errors of its reporter. There is always a result, and a text for every program. -/
theorem runs_are_safe {text : String} (hread : Problem.read text = .ok problem)
    (settings : Settings) (supply : Supply σ) :
    (∀ cause, start settings problem supply = .error (.settings cause) ↔
      settings.check = .error cause) ∧
    settings.check ≠ .error .noTerminals ∧
    (∀ error, settings.check = .ok () → start settings problem supply = .error error →
      ∃ fault, error = .fault fault ∧ fault.OfResources settings) ∧
    (∀ g, Generator.ofLimits settings.maxLength problem.terminalCount settings.depth = .ok g →
      g.Serves settings problem) ∧
    (∀ g : Generator, g.Serves settings problem →
      Draw.Yields (g.generate : Draw σ (Program × Generator)) fun r =>
        r.1.length ≤ settings.maxLength ∧ r.2.Serves settings problem) ∧
    (∀ e, Reachable settings problem supply e →
      e.InBounds ∧ ∀ fault, e.step = .error fault → fault = .supplyExhausted) ∧
    (∀ e, Rested settings problem supply e →
      (∀ fault, e.advance = .error fault → fault = .supplyExhausted) ∧
      (∀ (ω : Type) (reporter : Reporter ω) (out : ω) (error : EvolutionError),
        (e.run reporter out).1 = .error error →
          (∃ cause, error = .write cause) ∨ error = .fault .supplyExhausted) ∧
      (∃ r, e.result = .ok r) ∧
      ∀ slot < settings.populationSize, ∃ text, e.formula slot = .ok text) := by
  have hrun := Problem.runnable_of_read hread
  refine ⟨fun cause => start_eq_settings_error_iff hrun, settings.check_ne_noTerminals, ?_,
    fun g => Generator.serves_of_ofLimits, fun g => Generator.Serves.yields_generate hrun, ?_, ?_⟩
  · intro error hcheck hstart
    rcases start_eq_error hrun hstart with ⟨cause, hcause, -⟩ | ⟨-, hfault⟩
    · rw [hcheck] at hcause
      cases hcause
    · exact hfault
  · intro e h
    obtain ⟨haccepted, hsound⟩ := h.sound hread
    exact ⟨h.inBounds hread, fun fault hfault => (hsound.step haccepted).of_eq_error hfault⟩
  · intro e h
    obtain ⟨haccepted, hsound⟩ := Reachable.sound hread (.rested h)
    refine ⟨fun fault hfault => (hsound.advance haccepted).of_eq_error hfault, ?_,
      hsound.exists_result, ?_⟩
    · intro ω reporter out error herror
      obtain ⟨n, hran⟩ := h.ran hread reporter out
      cases error with
      | settings cause =>
        rw [herror] at hran
        cases hran
      | write cause => exact .inl ⟨cause, rfl⟩
      | fault fault => exact .inr (congrArg _ (hran.eq_supplyExhausted hread h herror))
    · intro slot hslot
      rw [formula, Population.program_eq (hsound.size_programs ▸ hslot)]
      exact ⟨_, rfl⟩

/-- The small run is safe after its only generation. -/
theorem runs_are_safe_sample : ∃ problem e, Problem.read Sample.text = .ok problem ∧
    Reachable Sample.settings problem Sample.supply e ∧ e.InBounds := by
  obtain ⟨problem, e, hread, h⟩ := Sample.reachable
  obtain ⟨-, -, -, -, -, hreachable, -⟩ := runs_are_safe hread Sample.settings Sample.supply
  exact ⟨problem, e, hread, h, (hreachable e h).1⟩

end Evolution

end SymbolicRegression
