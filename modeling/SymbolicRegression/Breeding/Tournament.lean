import SymbolicRegression.Random.Uniform

/-!
# Tournaments

Slots of a population are chosen by tournament: a few are drawn with replacement, and the fittest
of them wins. The loser of a negative tournament, the least fit, is the one to be replaced. A
later entrant has to beat the best so far; of equals the first drawn wins.

## Main definitions

* `SymbolicRegression.winner` — the first of the best entrants.
* `SymbolicRegression.tournament`, `SymbolicRegression.negativeTournament` — the two contests.
-/

set_option autoImplicit false

namespace SymbolicRegression

/-- The better of the best entrant so far and the next one. -/
def challenge (beats : Float → Float → Bool) (fitness : Array Float) (best next : Nat) : Nat :=
  if beats (fitness.getD next 0.0) (fitness.getD best 0.0) then next else best

/-- The first of the best entrants; slot zero if nobody enters. -/
def winner (beats : Float → Float → Bool) (fitness : Array Float) : List Nat → Nat
  | [] => 0
  | first :: rest => rest.foldl (challenge beats fitness) first

/-- A greater fitness beats a smaller one. -/
def fitter (a b : Float) : Bool := decide (b < a)

/-- A smaller fitness beats a greater one. -/
def lessFit (a b : Float) : Bool := decide (a < b)

variable {σ : Type} [WordSource σ]

/-- The slots drawn for a tournament of `rounds` entrants, and one at least. -/
def entrants (size rounds : Nat) : Draw σ (List Nat) :=
  (List.replicate (max rounds 1) size).mapM Draw.below

/-- The slot that wins a contest; slot zero, without a draw, if there is no slot. -/
def contest (beats : Float → Float → Bool) (fitness : Array Float) (rounds : Nat) : Draw σ Nat := do
  if fitness.isEmpty then return 0
  else return winner beats fitness (← entrants fitness.size rounds)

/-- The fittest of `rounds` slots drawn at random. -/
def tournament (fitness : Array Float) (rounds : Nat) : Draw σ Nat := contest fitter fitness rounds

/-- The least fit of `rounds` slots drawn at random. -/
def negativeTournament (fitness : Array Float) (rounds : Nat) : Draw σ Nat :=
  contest lessFit fitness rounds

end SymbolicRegression
