import SymbolicRegression.Fitness.Summary
import SymbolicRegression.Program.Basic

/-!
# Populations

Programs together with their fitness, slot by slot. A population is never empty, and it has as
many fitness values as programs.

## Main definitions

* `SymbolicRegression.Population` — programs and fitness.
* `SymbolicRegression.Population.replace` — put another program into a slot.
-/

set_option autoImplicit false

namespace SymbolicRegression

/-- Programs with their fitness. -/
structure Population where
  /-- The program in each slot. -/
  programs : Array Program
  /-- The fitness of each slot. -/
  fitness : Array Float
  /-- Every program has a fitness. -/
  size_fitness : fitness.size = programs.size
  /-- There is a program. -/
  size_pos : 0 < programs.size

namespace Population

/-- A population of programs with the fitness given for them, if there is one for each. -/
def ofParts? (programs : Array Program) (fitness : Array Float) : Option Population :=
  if h : fitness.size = programs.size ∧ 0 < programs.size then some ⟨programs, fitness, h.1, h.2⟩
  else none

/-- The number of slots. -/
def size (pop : Population) : Nat := pop.programs.size

/-- The program in a slot. -/
def program (pop : Population) (slot : Nat) : Except Fault Program :=
  match pop.programs[slot]? with
  | some p => .ok p
  | none => .error (.noSlot slot pop.size)

/-- The fitness of a slot. -/
def fitnessOf (pop : Population) (slot : Nat) : Except Fault Float :=
  match pop.fitness[slot]? with
  | some x => .ok x
  | none => .error (.noSlot slot pop.size)

/-- Put a program with its fitness into a slot. -/
def replace (pop : Population) (slot : Nat) (p : Program) (fitness : Float) :
    Except Fault Population :=
  if slot < pop.size then
    .ok { programs := pop.programs.setIfInBounds slot p
          fitness := pop.fitness.setIfInBounds slot fitness
          size_fitness := by simp [pop.size_fitness]
          size_pos := by simp [pop.size_pos] }
  else .error (.noSlot slot pop.size)

/-- The first slot of greatest fitness. -/
def bestIndex (pop : Population) : Nat := bestSlot pop.fitness

/-- The summary of the fitness. -/
def summary (pop : Population) : Summary := Summary.ofFitness pop.fitness

/-- The mean number of nodes of a program. -/
def meanSize (pop : Population) : Float :=
  Float.ofNat (pop.programs.foldl (fun n p => n + p.nodeCount) 0) / Float.ofNat pop.size

end Population

end SymbolicRegression
