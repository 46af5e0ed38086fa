import SymbolicRegression.Proofs.Evolution.Start
import SymbolicRegression.Random.Xoshiro

set_option autoImplicit false
set_option relaxedAutoImplicit false

/-!
# The limit on the number of terminals

An opcode stands for a terminal only if it lies below the opcodes of the operators. The generator of
the first programs insists that there are no more terminals than that, but only as an assertion,
which is dropped when assertions are not compiled in. What is left then is the check of the
parameters and the look for a terminal. For a problem with opcodes for all its terminals the
assertion makes no difference, and the first programs are complete. A problem with more terminals is
not refused, and a terminal that is drawn may turn out to be an operator without operands.

## Main definitions

* `SymbolicRegression.Generator.unasserted` — a generator without the assertion.
* `SymbolicRegression.Evolution.startUnasserted` — a start without the assertion.

## Main results

* `SymbolicRegression.Evolution.startUnasserted_eq_start` — when the assertion makes no difference.
* `SymbolicRegression.Evolution.startUnasserted_eq_settings_error_iff` — what is refused.
* `SymbolicRegression.Evolution.startUnasserted_admits` — starts within the limit and past it.
* `SymbolicRegression.Evolution.startUnasserted_incomplete` — a first program that is not complete.
-/

namespace SymbolicRegression

variable {σ : Type} [WordSource σ]

/-! ## Generators -/

/-- A generator when assertions are not compiled in: it takes any number of terminals, as long as
there is room for its buffer. -/
def Generator.unasserted (maxLength terminals depth : Nat) : Except Fault Generator := do
  Storage.reserve 1 maxLength
  return fresh maxLength terminals depth

/-- Within the limit the assertion of a generator makes no difference. -/
theorem Generator.unasserted_eq_ofLimits {maxLength terminals depth : Nat} (hpos : 0 < terminals)
    (hle : terminals ≤ 110) :
    unasserted maxLength terminals depth = ofLimits maxLength terminals depth := by
  have hfirst : Operator.firstOpcode.toNat = 110 := by decide
  have hrange : ¬ (terminals = 0 ∨ Operator.firstOpcode.toNat < terminals) := by omega
  rw [ofLimits, if_neg hrange, unasserted]

/-- Past the limit the assertion of a generator fails. -/
theorem Generator.ofLimits_eq_terminalRange {maxLength terminals depth : Nat}
    (hmany : 110 < terminals) : ofLimits maxLength terminals depth =
      .error (.terminalRange terminals) := by
  have hfirst : Operator.firstOpcode.toNat = 110 := by decide
  have hrange : terminals = 0 ∨ Operator.firstOpcode.toNat < terminals := by omega
  rw [ofLimits, if_pos hrange]
  rfl

namespace Evolution

variable {settings : Settings} {problem : Problem} {supply : Supply σ}

/-! ## Starts past the limit -/

/-- A start fails as the table of constants does. -/
theorem startFrom_of_sample_eq_error {generator : Except Fault Generator} {fault : Fault}
    (h : (Bindings.sample problem).run supply = .error fault) :
    startFrom generator settings problem supply = .error (.fault fault) := by
  rw [startFrom, populate, h]
  rfl

/-- Once the constants have been drawn, a start fails as the generator does. -/
theorem startFrom_of_sample_eq_ok {fault : Fault} {drawn : Bindings × Supply σ}
    (h : (Bindings.sample problem).run supply = .ok drawn) :
    startFrom (.error fault) settings problem supply = .error (.fault fault) := by
  rw [startFrom, populate, h]
  rfl

/-! ## Starts without the assertion -/

/-- Start a run when assertions are not compiled in: the number of terminals is counted in a word
of 64 bits, and the generator takes it as it is. That the number does not fit into a word is only
found when the table of constants is made. -/
def startUnasserted (settings : Settings) (problem : Problem) (supply : Supply σ) :
    Except EvolutionError (Evolution σ) := do
  settings.check.mapError EvolutionError.settings
  let terminals := problem.terminalCount % UInt64.size
  if terminals = 0 then throw (.settings .noTerminals)
  startFrom (Generator.unasserted settings.maxLength terminals settings.depth) settings problem
    supply

/-- **Within the limit the assertion makes no difference.** -/
theorem startUnasserted_eq_start (hle : problem.terminalCount ≤ 110) :
    startUnasserted settings problem supply = start settings problem supply := by
  have hword : problem.terminalCount < UInt64.size := lt_of_le_of_lt hle (by decide)
  unfold startUnasserted start
  rw [Problem.countTerminals, if_pos hword, Nat.mod_eq_of_lt hword]
  refine bind_congr fun _ => ?_
  rcases Nat.eq_zero_or_pos problem.terminalCount with hzero | hpos
  · rw [hzero]
    rfl
  · show (if problem.terminalCount = 0 then _ else _) = (if problem.terminalCount = 0 then _ else _)
    rw [if_neg hpos.ne', if_neg hpos.ne', Generator.unasserted_eq_ofLimits hpos hle]

/-- **What is refused without the assertion**: parameters out of range, and problems without
terminals, or with so many that none are left when they are counted in a word. -/
theorem startUnasserted_eq_settings_error_iff {cause : SettingsError} :
    startUnasserted settings problem supply = .error (.settings cause) ↔
      settings.check = .error cause ∨ settings.check = .ok () ∧
        problem.terminalCount % UInt64.size = 0 ∧ cause = .noTerminals := by
  unfold startUnasserted
  cases hcheck : settings.check with
  | error cause' =>
    simp [Except.mapError, bind, Except.bind]
  | ok _ =>
    have hpos := (Settings.of_check hcheck).populationSize_pos
    rcases Nat.eq_zero_or_pos (problem.terminalCount % UInt64.size) with hzero | hsome
    · rw [hzero]
      show (.error (.settings .noTerminals) : Except EvolutionError (Evolution σ)) = _ ↔ _
      simp [eq_comm]
    · show (if problem.terminalCount % UInt64.size = 0 then _ else _) = _ ↔ _
      rw [if_neg hsome.ne']
      simp only [hsome.ne', false_and, and_false, reduceCtorEq, or_self, iff_false]
      intro h
      obtain ⟨fault, -, hfault⟩ := of_startFrom_eq_error hpos h
      cases hfault

/-- Past the limit a start comes to the constants and to the generator. -/
theorem start_eq_startFrom_error (hcheck : settings.check = .ok ())
    (hmany : 110 < problem.terminalCount) (hword : problem.terminalCount < UInt64.size) :
    start settings problem supply =
      startFrom (.error (.terminalRange problem.terminalCount)) settings problem supply := by
  rw [start_eq_startFrom hcheck (by omega) hword, Generator.ofLimits_eq_terminalRange hmany]

/-- Within the limit the first programs are complete, and their terminals are those of the
problem. -/
theorem programs_of_startUnasserted {e : Evolution σ} (hle : problem.terminalCount ≤ 110)
    (h : startUnasserted settings problem supply = .ok e) :
    e.population.programs.size = settings.populationSize ∧
      ∀ p ∈ e.population.programs, p.Fits settings.maxLength problem.terminalCount := by
  have hword : problem.terminalCount < UInt64.size := lt_of_le_of_lt hle (by decide)
  simp only [startUnasserted, bind_eq_ok_iff, Nat.mod_eq_of_lt hword] at h
  obtain ⟨_, -, h⟩ := h
  split at h
  · cases h
  · rename_i hsome
    obtain ⟨bindings, population, supply', hpopulate, rfl⟩ := startFrom_eq_ok_iff.mp h
    obtain ⟨g, s, hgenerator, -, -, hgenerate, -⟩ := populate_eq_ok_iff.mp hpopulate
    rw [Generator.unasserted_eq_ofLimits (Nat.pos_of_ne_zero hsome) hle] at hgenerator
    obtain ⟨-, rfl⟩ := Generator.eq_fresh_of_ofLimits hgenerator
    exact ⟨(size_of_populate hpopulate).1, ((Generator.yields_generateMany
      (Nat.pos_of_ne_zero hsome) hle settings.populationSize _ rfl rfl #[] (by simp) s).of_eq_ok
      hgenerate).2⟩

/-- **Which problems a start admits without the assertion.** It refuses parameters out of range and
problems without terminals, and no others. Within the limit it is the start that asserts, and the
first programs are complete, with the terminals of the problem. Past the limit the start that
asserts fails, at the table of constants or at the assertion behind it, and the other one is not
refused. -/
theorem startUnasserted_admits (settings : Settings) (problem : Problem) (supply : Supply σ) :
    (∀ cause, startUnasserted settings problem supply = .error (.settings cause) ↔
      settings.check = .error cause ∨ settings.check = .ok () ∧
        problem.terminalCount % UInt64.size = 0 ∧ cause = .noTerminals) ∧
      (problem.terminalCount ≤ 110 →
        startUnasserted settings problem supply = start settings problem supply ∧
        ∀ e, startUnasserted settings problem supply = .ok e →
          e.population.programs.size = settings.populationSize ∧
          ∀ p ∈ e.population.programs, subtreeEnd p.code 0 = some p.code.length ∧
            ∀ op ∈ p.code, op < Operator.firstOpcode → op.toNat < problem.terminalCount) ∧
      (settings.check = .ok () → 110 < problem.terminalCount →
        problem.terminalCount < UInt64.size →
        (∀ fault, (Bindings.sample problem).run supply = .error fault →
          start settings problem supply = .error (.fault fault) ∧
          startUnasserted settings problem supply = .error (.fault fault)) ∧
        (∀ drawn, (Bindings.sample problem).run supply = .ok drawn →
          start settings problem supply =
            .error (.fault (.terminalRange problem.terminalCount))) ∧
        ∀ cause, startUnasserted settings problem supply ≠ .error (.settings cause)) := by
  refine ⟨fun cause => startUnasserted_eq_settings_error_iff, fun hle => ?_,
    fun hcheck hmany hword => ⟨fun fault h => ⟨?_, ?_⟩, fun drawn h => ?_, fun cause h => ?_⟩⟩
  · refine ⟨startUnasserted_eq_start hle, fun e h => ?_⟩
    obtain ⟨hsize, hfits⟩ := programs_of_startUnasserted hle h
    exact ⟨hsize, fun p hp => ⟨(hfits p hp).isComplete, (hfits p hp).slotsBelow⟩⟩
  · rw [start_eq_startFrom_error hcheck hmany hword, startFrom_of_sample_eq_error h]
  · have hsome : problem.terminalCount ≠ 0 := by omega
    rw [startUnasserted, hcheck, Nat.mod_eq_of_lt hword]
    show (if problem.terminalCount = 0 then _ else _) = _
    rw [if_neg hsome, startFrom_of_sample_eq_error h]
  · rw [start_eq_startFrom_error hcheck hmany hword, startFrom_of_sample_eq_ok h]
  · rcases startUnasserted_eq_settings_error_iff.mp h with h | ⟨-, hzero, -⟩
    · rw [hcheck] at h
      cases h
    · rw [Nat.mod_eq_of_lt hword] at hzero
      omega

end Evolution

/-! ## Small starts -/

namespace Sample

/-- No cases and a number of variables. -/
def wide (count : Nat) : Problem := ⟨count, 0, 0.0, 1.0, []⟩

/-- One program with one operator. -/
def single : Settings where
  seed := 21
  maxLength := 3
  populationSize := 1
  depth := 1

/-- A start without the assertion passes a test. -/
def starts (problem : Problem) (test : Program → Bool) : Bool :=
  match Evolution.startUnasserted single problem (.ofSource (Xoshiro.ofSeed single.seed)) with
  | .ok e => e.population.programs.any test
  | .error _ => false

/-- A start that passes a test has a program that does. -/
theorem exists_of_starts (problem : Problem) (test : Program → Bool)
    (h : starts problem test = true) : ∃ e,
      Evolution.startUnasserted single problem (.ofSource (Xoshiro.ofSeed single.seed)) = .ok e ∧
        ∃ p ∈ e.population.programs, test p = true := by
  unfold starts at h
  split at h
  · exact ⟨_, ‹_›, Array.any_eq_true'.mp h⟩
  · cases h

end Sample

namespace Evolution

set_option maxRecDepth 10000 in
/-- With as many variables as there are opcodes for, the only program is complete. -/
theorem startUnasserted_admits_sample : ∃ e,
    startUnasserted Sample.single (Sample.wide 110)
      (.ofSource (Xoshiro.ofSeed Sample.single.seed)) = .ok e ∧
      ∀ p ∈ e.population.programs, subtreeEnd p.code 0 = some p.code.length := by
  obtain ⟨e, h, -⟩ := Sample.exists_of_starts (Sample.wide 110) (fun _ => true) (by decide +kernel)
  obtain ⟨-, hadmits, -⟩ := startUnasserted_admits Sample.single (Sample.wide 110)
    (.ofSource (Xoshiro.ofSeed Sample.single.seed))
  exact ⟨e, h, fun p hp => (((hadmits (by decide)).2 e h).2 p hp).1⟩

set_option maxRecDepth 10000 in
/-- **With one more variable there is a start with a program that is not complete**: the last
variable that is drawn is an operator. -/
theorem startUnasserted_incomplete : ∃ e,
    startUnasserted Sample.single (Sample.wide 111)
      (.ofSource (Xoshiro.ofSeed Sample.single.seed)) = .ok e ∧
      ∃ p ∈ e.population.programs, subtreeEnd p.code 0 ≠ some p.code.length := by
  obtain ⟨e, h, p, hp, htest⟩ := Sample.exists_of_starts (Sample.wide 111)
    (fun p => decide (subtreeEnd p.code 0 ≠ some p.code.length)) (by decide +kernel)
  exact ⟨e, h, p, hp, of_decide_eq_true htest⟩

end Evolution

end SymbolicRegression
