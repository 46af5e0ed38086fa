import SymbolicRegression.Breeding.Tournament

/-!
# Summary of a fitness vector

## Main definitions

* `SymbolicRegression.bestSlot` — the first slot of greatest fitness.
* `SymbolicRegression.Summary.ofFitness` — mean, best and worst fitness.
-/

set_option autoImplicit false

namespace SymbolicRegression

/-- The first slot of greatest fitness. -/
def bestSlot (fitness : Array Float) : Nat := winner fitter fitness (List.range fitness.size)

/-- The smaller of two numbers, the first if neither is smaller. -/
def lesser (a b : Float) : Float := if b < a then b else a

/-- The greater of two numbers, the first if neither is greater. -/
def greater (a b : Float) : Float := if a < b then b else a

/-- A fitness vector at a glance. -/
structure Summary where
  /-- The mean fitness. -/
  mean : Float
  /-- The greatest fitness. -/
  best : Float
  /-- The least fitness; undefined values are passed over. -/
  worst : Float
  /-- The first slot of greatest fitness. -/
  bestIndex : Nat

/-- The summary of a fitness vector. The sum starts from negative zero, so that the mean of
negative zeros is negative zero. An empty vector has zeros throughout. -/
def Summary.ofFitness (fitness : Array Float) : Summary :=
  if fitness.isEmpty then ⟨0.0, 0.0, 0.0, 0⟩
  else
    let best := bestSlot fitness
    { mean := fitness.foldl (· + ·) (-0.0) / Float.ofNat fitness.size
      best := fitness.getD best 0.0
      worst := fitness.foldl lesser (1.0 / 0.0)
      bestIndex := best }

end SymbolicRegression
