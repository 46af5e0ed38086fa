import SymbolicRegression.Proofs.Float.Packing

set_option autoImplicit false
set_option relaxedAutoImplicit false

/-!
# The order of floating-point numbers

Comparison of floating-point numbers is a total preorder as long as none of them is undefined: it
compares ranks, and ranks are ordered linearly. The two zeros have one rank, and negation turns the
order of the ranks around.

## Main definitions

* `SymbolicRegression.rank` — where a number stands among the others.

## Main results

* `SymbolicRegression.rank_neg` — the rank of a negative.
* `SymbolicRegression.eq_zero_or_eq_neg_zero` — the numbers that equal zero.
* `SymbolicRegression.lt_iff_rank_lt`, `SymbolicRegression.le_iff_rank_le` — numbers that are
  defined are compared by their ranks.
-/

namespace SymbolicRegression

open Float.Model Float.Model.UnpackedFloat

/-! ## Ranks -/

/-- Where an unpacked number stands: first by its sign and kind, then by the exponent, then by the
mantissa, the last two turned around below zero. -/
def unpackedRank : UnpackedFloat → ℤ ×ₗ ℤ ×ₗ ℤ
  | .infinity .positive => toLex (2, toLex (0, 0))
  | .finite .positive m e _ => toLex (1, toLex (e, m))
  | .zero _ => toLex (0, toLex (0, 0))
  | .finite .negative m e _ => toLex (-1, toLex (-e, -m))
  | .infinity .negative => toLex (-2, toLex (0, 0))
  | .notANumber => toLex (0, toLex (0, 0))

/-- Where a number stands among all that are defined. -/
def rank (x : Float) : ℤ ×ₗ ℤ ×ₗ ℤ := unpackedRank (unpacked x)

/-- **Negation turns the ranks around.** -/
theorem rank_neg (x : Float) : rank (-x) = -rank x := by
  rw [rank, rank, unpacked_neg]
  rcases unpacked x with s | _ | s | ⟨s, m, e, hm⟩
  case notANumber => rfl
  all_goals cases s <;> simp [UnpackedFloat.neg, unpackedRank, ← toLex_neg]

/-! ## Zeros -/

/-- **A number that equals zero is one of the two zeros.** -/
theorem eq_zero_or_eq_neg_zero {x : Float} (h : x == 0.0) : x = 0.0 ∨ x = -0.0 := by
  have hpos : unpacked 0.0 = .zero .positive := by rfl
  have hneg : unpacked (-0.0) = .zero .negative := by rfl
  have hcompare : ((unpacked x).compare (unpacked 0.0) == some .eq) = true := h
  rw [hpos] at hcompare
  rcases hx : unpacked x with s | _ | s | ⟨s, m, e, hm⟩ <;> rw [hx] at hcompare
  case zero =>
    cases s with
    | positive => exact .inl (unpacked_injective (hx.trans hpos.symm))
    | negative => exact .inr (unpacked_injective (hx.trans hneg.symm))
  -- no other number equals zero
  all_goals (try cases s) <;> simp [UnpackedFloat.compare] at hcompare

/-! ## Comparison -/

/-- Exponents are compared before mantissas: the first number comes first. -/
lemma compare_then_eq_lt {e e' : ℤ} {m m' : ℕ} :
    (compare e e').then (compare m m') = .lt ↔ e < e' ∨ e = e' ∧ m < m' := by
  rw [Ordering.then_eq_lt, Int.compare_eq_lt, Int.compare_eq_eq, Nat.compare_eq_lt]

/-- Exponents are compared before mantissas: the first number comes last. -/
lemma compare_then_eq_gt {e e' : ℤ} {m m' : ℕ} :
    (compare e e').then (compare m m') = .gt ↔ e' < e ∨ e = e' ∧ m' < m := by
  rw [Ordering.then_eq_gt, Int.compare_eq_gt, Int.compare_eq_eq, Nat.compare_eq_gt]

/-- Unpacked numbers that are defined compare as their ranks do.

**Proof sketch.** Numbers of different sign or kind have different first components, so only two
finite numbers of one sign need their exponents and mantissas compared. -/
theorem compare_eq_some {u v : UnpackedFloat} (hu : u.isNaN = false) (hv : v.isNaN = false) :
    ∃ o, u.compare v = some o ∧ (o = .lt ↔ unpackedRank u < unpackedRank v) ∧
      (o = .gt ↔ unpackedRank v < unpackedRank u) := by
  rcases u with s | _ | s | ⟨s, m, e, hm⟩ <;> rcases v with s' | _ | s' | ⟨s', m', e', hm'⟩ <;>
    try cases s
  all_goals try cases s'
  all_goals first
    | exact absurd hu (by decide)
    | exact absurd hv (by decide)
    | refine ⟨_, rfl, ?_, ?_⟩
  -- two finite numbers of one sign
  case finite.finite.negative.negative.refine_1 =>
    simp [unpackedRank, Prod.Lex.toLex_lt_toLex, compare_then_eq_gt]
  case finite.finite.negative.negative.refine_2 =>
    simp [unpackedRank, Prod.Lex.toLex_lt_toLex, compare_then_eq_lt, @eq_comm ℤ e' e]
  case finite.finite.positive.positive.refine_1 =>
    simp [unpackedRank, Prod.Lex.toLex_lt_toLex, compare_then_eq_lt]
  case finite.finite.positive.positive.refine_2 =>
    simp [unpackedRank, Prod.Lex.toLex_lt_toLex, compare_then_eq_gt, @eq_comm ℤ e' e]
  all_goals simp [unpackedRank, Prod.Lex.toLex_lt_toLex, compare]

variable {a b : Float}

/-- **Of two numbers that are defined, the smaller one has the smaller rank.** -/
theorem lt_iff_rank_lt (ha : a.isNaN = false) (hb : b.isNaN = false) : a < b ↔ rank a < rank b := by
  obtain ⟨o, ho, hlt, -⟩ := compare_eq_some (u := unpacked a) (v := unpacked b) ha hb
  have hab : a < b ↔ ((unpacked a).compare (unpacked b) == some .lt) = true := by
    show decide (((unpacked a).compare (unpacked b) == some .lt) = true) = true ↔ _
    rw [decide_eq_true_eq]
  rw [hab, ho, beq_iff_eq, Option.some.injEq, hlt]
  rfl

/-- **A number that is defined is at most another one if it has at most its rank.** -/
theorem le_iff_rank_le (ha : a.isNaN = false) (hb : b.isNaN = false) : a ≤ b ↔ rank a ≤ rank b := by
  obtain ⟨o, ho, -, hgt⟩ := compare_eq_some (u := unpacked a) (v := unpacked b) ha hb
  have hab : a ≤ b ↔ ((unpacked a).compare (unpacked b)).any (·.isLE) = true := by
    show decide (((unpacked a).compare (unpacked b)).any (·.isLE) = true) = true ↔ _
    rw [decide_eq_true_eq]
  have hle : o.isLE = true ↔ ¬ o = .gt := by cases o <;> decide
  rw [hab, ho, Option.any_some, hle, hgt, not_lt]
  rfl

end SymbolicRegression
