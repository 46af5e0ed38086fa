/-!
# Records of a run

What a run notes about each generation, and the phases that it passes through:

```text
initializing ──► running ──► solved
                    │
                    └──────► exhausted
```

## Main definitions

* `SymbolicRegression.GenerationRecord` — the population at the end of a generation.
* `SymbolicRegression.Phase` — how far a run has come.
* `SymbolicRegression.Outcome` — how a run ended.
-/

set_option autoImplicit false

namespace SymbolicRegression

/-- The population at the end of a generation. -/
structure GenerationRecord where
  /-- The number of the generation; the first one is zero. -/
  generation : Nat
  /-- The greatest fitness. -/
  bestFitness : Float
  /-- The mean fitness. -/
  meanFitness : Float
  /-- The least fitness. -/
  worstFitness : Float
  /-- The mean number of nodes. -/
  meanSize : Float
  /-- The slot of the best program. -/
  bestIndex : Nat

/-- How far a run has come. -/
inductive Phase where
  /-- The first programs are scored. -/
  | initializing
  /-- Generations are being made. -/
  | running
  /-- The best fitness has passed the threshold. -/
  | solved
  /-- All generations have been made. -/
  | exhausted
  deriving DecidableEq, Repr

/-- Whether no further generation will be made. -/
def Phase.isFinal : Phase → Bool
  | .solved | .exhausted => true
  | .initializing | .running => false

/-- How a run ended. -/
inductive Outcome where
  /-- The best fitness has passed the threshold. -/
  | solved
  /-- It has not. -/
  | exhausted
  deriving DecidableEq, Repr

/-- The name of an outcome. -/
def Outcome.name : Outcome → String
  | .solved => "solved"
  | .exhausted => "exhausted"

end SymbolicRegression
