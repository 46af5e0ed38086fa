import SymbolicRegression.Proofs.Fitness.Ranking
import SymbolicRegression.Proofs.Float.Sums

set_option autoImplicit false
set_option relaxedAutoImplicit false

/-!
# Cases of zeros

All operators lead from zeros to zeros, the guarded division included, so a formula has the value
zero where everything is bound to zero. On a case like that every formula is as far off as the
target is from zero. Since errors only add up, no fitness is then above the negated magnitude of
that target.

## Main results

* `SymbolicRegression.Program.IsComplete.evaluate_of_zeros` — the value of a formula at zeros.
* `SymbolicRegression.Program.fitnessOn_le_neg` — fitness is not above any negated error.
* `SymbolicRegression.Program.IsComplete.fitnessOn_le_of_zeros` — the fitness of a formula when one
  of the cases is of zeros.
-/

namespace SymbolicRegression

/-! ## Values at zeros -/

/-- Operators lead from zeros to zeros. -/
theorem Operator.apply_of_zeros (op : Operator) {x y : Float} (hx : x == 0.0) (hy : y == 0.0) :
    op.apply x y == 0.0 := by
  rcases eq_zero_or_eq_neg_zero hx with rfl | rfl <;>
    rcases eq_zero_or_eq_neg_zero hy with rfl | rfl <;> cases op <;> rfl

variable {values : Array Float}

/-- A formula is zero where its terminals are. -/
theorem Tree.value_of_zeros (h : ∀ v ∈ values, v == 0.0) (t : Tree) : t.value values == 0.0 := by
  induction t with
  | leaf slot =>
    rw [Tree.value, Array.getD_eq_getD_getElem?]
    cases hslot : values[slot.val]? with
    | none => rfl
    | some v => exact h v (Array.mem_of_getElem? hslot)
  | node op left right hleft hright => exact op.apply_of_zeros hleft hright

namespace Program

variable {p : Program}

/-- A complete program is zero where everything is bound to zero. -/
theorem IsComplete.valueAt_of_zeros (hp : p.IsComplete) (h : ∀ v ∈ values, v == 0.0) :
    p.valueAt values == 0.0 := by
  obtain ⟨t, rfl⟩ := hp.exists_eq_encode
  rw [valueAt_encode]
  exact t.value_of_zeros h

/-- **A complete program is evaluated to zero where everything is bound to zero**, whatever the
machine has evaluated before. -/
theorem IsComplete.evaluate_of_zeros (hp : p.IsComplete) (m : Machine) {b : Bindings}
    (h : ∀ v ∈ b.values, v == 0.0) : (m.evaluate p b).1 == 0.0 := by
  rw [m.evaluate_fst]
  exact hp.valueAt_of_zeros h

/-! ## Errors at zeros -/

variable {cases : List FitnessCase} {constants : Array Float}

/-- **Fitness is not above any negated error.** -/
theorem fitnessOn_le_neg {y : Float} (hy : y ∈ p.errorsOn cases constants)
    (hfinite : y.isFinite = true) : p.fitnessOn cases constants ≤ -y := by
  have hopposite := (isFinite_neg y).trans hfinite
  have hdefined := isNaN_of_isFinite hopposite
  rw [le_iff_rank_le (p.isNaN_fitnessOn cases constants) hdefined]
  cases herror : (p.errorOn cases constants).isFinite with
  | false =>
    rw [fitnessOn_of_not_isFinite herror]
    have hinfinity : (-(1.0 / 0.0) : Float).isNaN = false := by rfl
    exact ((lt_iff_rank_lt hinfinity hdefined).mp (neg_infinity_lt hopposite)).le
  | true =>
    rw [(fitnessOn_of_isFinite herror).1, rank_neg, rank_neg, neg_le_neg_iff]
    rw [errorOn_eq_foldl] at herror ⊢
    exact (rank_le_foldl_add (le_refl (rank 0.0))
      (fun _ h => p.isMagnitude_of_mem_errorsOn cases constants h) herror).2 y hy

/-- **No formula is fitter than the target of a case of zeros allows.** -/
theorem IsComplete.fitnessOn_le_of_zeros (hp : p.IsComplete) {c : FitnessCase} (hc : c ∈ cases)
    (hzeros : ∀ v ∈ c.inputs ++ constants, v == 0.0) (htarget : c.target.isFinite = true) :
    p.fitnessOn cases constants ≤ -c.target.abs := by
  have herror : (p.valueAt (c.inputs ++ constants) - c.target).abs = c.target.abs :=
    abs_sub_of_zero (hp.valueAt_of_zeros hzeros) c.target
  exact fitnessOn_le_neg (List.mem_map.mpr ⟨c, hc, herror⟩) ((isFinite_abs c.target).trans htarget)

end Program

end SymbolicRegression
