import SymbolicRegression.Proofs.CaseFile.Format

set_option autoImplicit false
set_option relaxedAutoImplicit false

/-!
# Problems that are read

What a run relies on without checking it: a problem read from a case file has a terminal and an
opcode for each terminal, one input for each variable in every case, and a range of constants
with finite ends and finite width.

## Main definitions

* `SymbolicRegression.Problem.Runnable` — what a run relies on.

## Main results

* `SymbolicRegression.Problem.isFinite_target_of_read` — the targets of a problem that is read.
* `SymbolicRegression.Problem.runnable_of_read` — a problem that is read can be run.
-/

namespace SymbolicRegression

/-- What a run relies on in a problem. -/
structure Problem.Runnable (p : Problem) : Prop where
  /-- There is a terminal. -/
  terminalCount_pos : 0 < p.terminalCount
  /-- There is an opcode for every terminal. -/
  terminalCount_le : p.terminalCount ≤ 110
  /-- Every case has an input for each variable. -/
  size_inputs : ∀ c ∈ p.cases, c.inputs.size = p.varCount
  /-- The range of constants starts at a finite number. -/
  isFinite_minRandom : p.minRandom.isFinite = true
  /-- The range of constants ends at a finite number. -/
  isFinite_maxRandom : p.maxRandom.isFinite = true
  /-- The range of constants does not end below its start. -/
  not_reversed : ¬ p.maxRandom < p.minRandom
  /-- The width of the range of constants is finite. -/
  isFinite_width : (p.maxRandom - p.minRandom).isFinite = true

/-- A number that is read is finite. -/
theorem Decimal.isFinite_of_readFinite {token : List Char} {x : Float}
    (h : Decimal.readFinite token = some x) : x.isFinite = true := by
  simp only [Decimal.readFinite, Option.bind_eq_bind, Option.bind_eq_some_iff] at h
  obtain ⟨l, -, h⟩ := h
  split at h
  · obtain rfl := Option.some.inj h
    assumption
  · simp at h

/-- The target that a row describes is finite. -/
theorem FitnessCase.OnRow.isFinite_target {varCount : Nat} {row : List Char} {c : FitnessCase}
    (h : c.OnRow varCount row) : c.target.isFinite = true := by
  have hmem : some c.target ∈ (tokens row).map Decimal.readFinite := by
    rw [h.values]
    simp
  obtain ⟨token, -, htoken⟩ := List.mem_map.mp hmem
  exact Decimal.isFinite_of_readFinite htoken

/-- Each case of a problem that is read is described by a row. -/
theorem Problem.exists_onRow_of_read {text : String} {p : Problem} (h : Problem.read text = .ok p)
    {c : FitnessCase} (hc : c ∈ p.cases) : ∃ row, c.OnRow p.varCount row := by
  obtain ⟨header, -, hstands⟩ := read_eq_ok_iff.mp h
  obtain ⟨i, hi, rfl⟩ := List.mem_iff_getElem.mp hc
  rw [hstands.varCount]
  exact ⟨_, hstands.cases.get (hstands.cases.length_eq ▸ hi) hi⟩

/-- The targets of a problem that is read are finite. -/
theorem Problem.isFinite_target_of_read {text : String} {p : Problem}
    (h : Problem.read text = .ok p) {c : FitnessCase} (hc : c ∈ p.cases) :
    c.target.isFinite = true := by
  obtain ⟨row, hrow⟩ := exists_onRow_of_read h hc
  exact hrow.isFinite_target

/-- **A problem that is read can be run.** -/
theorem Problem.runnable_of_read {text : String} {p : Problem} (h : Problem.read text = .ok p) :
    p.Runnable := by
  have hinputs : ∀ c ∈ p.cases, c.inputs.size = p.varCount := fun c hc => by
    obtain ⟨row, hrow⟩ := exists_onRow_of_read h hc
    exact hrow.size_inputs
  obtain ⟨header, ⟨⟨line, -, hdeclared⟩, -, -⟩, hstands⟩ := read_eq_ok_iff.mp h
  obtain ⟨_, _, _, _, _, -, -, -, hmin, hmax, -⟩ := hdeclared.fields
  obtain ⟨varCount, constCount, minRandom, maxRandom, cases⟩ := p
  obtain ⟨rfl, rfl, rfl, rfl, -, -⟩ := hstands
  exact
    { terminalCount_pos := hdeclared.one_le_terminals
      terminalCount_le := hdeclared.terminals_le
      size_inputs := hinputs
      isFinite_minRandom := Decimal.isFinite_of_readFinite hmin
      isFinite_maxRandom := Decimal.isFinite_of_readFinite hmax
      not_reversed := hdeclared.not_reversed
      isFinite_width := hdeclared.isFinite_width }

end SymbolicRegression
