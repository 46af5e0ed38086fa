import SymbolicRegression.Decimal.Reader
import SymbolicRegression.Proofs.Float.Quotients

set_option autoImplicit false
set_option relaxedAutoImplicit false

/-!
# Literals stand for the nearest number

The number of a literal is its value rounded to the grid of its magnitude. The powers of ten for
which the digits are not looked at lie beyond all grids.

## Main definitions

* `SymbolicRegression.Decimal.Literal.value` — the magnitude that a literal writes down.

## Main results

* `SymbolicRegression.Decimal.Literal.isNearest_magnitude` — the number of a literal without sign.
* `SymbolicRegression.Decimal.Literal.isNearest_toFloat` — the number of a literal.
-/

namespace SymbolicRegression

open Float.Model.UnpackedFloat

namespace Decimal.Literal

/-- The magnitude that a literal writes down. -/
def value (l : Literal) : ℚ := l.coefficient * 10 ^ l.exponent

/-- The magnitude of a literal is not negative. -/
lemma value_nonneg (l : Literal) : 0 ≤ l.value := by
  unfold value
  positivity

/-- The number that stands for every magnitude that is too great. -/
lemma one_div_zero_eq : (1.0 / 0.0 : Float) = .ofModel (.pack (.infinity .positive)) := by
  decide +kernel

/-- The number that stands for every magnitude that is too small. -/
lemma zero_eq : (0.0 : Float) = .ofModel (.pack (.zero .positive)) := by
  decide +kernel

/-- The value of a literal has as many digits as it writes down. -/
lemma value_mem {l : Literal} (hl : l.coefficient ≠ 0) :
    (10 : ℚ) ^ (l.exponent + (Nat.repr l.coefficient).length - 1) ≤ l.value ∧
      l.value < 10 ^ (l.exponent + (Nat.repr l.coefficient).length) := by
  obtain ⟨k, hk⟩ : ∃ k, (Nat.repr l.coefficient).length = k + 1 :=
    Nat.exists_eq_add_one.mpr Nat.length_repr_pos
  have hhi : l.coefficient < 10 ^ (k + 1) := (Nat.length_repr_le_iff (by omega)).mp hk.le
  have hlo : 10 ^ k ≤ l.coefficient := by
    rcases Nat.eq_zero_or_pos k with rfl | hpos
    · exact Nat.pos_of_ne_zero hl
    · by_contra hlt
      have := (Nat.length_repr_le_iff hpos).mpr (not_le.mp hlt)
      omega
  have hhi' : (l.coefficient : ℚ) < 10 ^ (k + 1) := by exact_mod_cast hhi
  have hlo' : (10 ^ k : ℚ) ≤ l.coefficient := by exact_mod_cast hlo
  have hlead : ((k + 1 : ℕ) + l.exponent - 1 : ℤ) = k + l.exponent := by
    push_cast
    ring
  rw [hk, value, add_comm, hlead, zpow_add₀ (by norm_num), zpow_add₀ (by norm_num), zpow_natCast,
    zpow_natCast]
  constructor <;> gcongr

/-- **The number of a literal without sign is nearest to its value.** -/
theorem isNearest_magnitude (l : Literal) : IsNearest l.magnitude .positive l.value := by
  unfold magnitude
  split
  · rename_i hzero
    have h := isNearest_ofScientific 0 true 1
    rw [Nat.cast_zero, zero_mul] at h
    rw [value, hzero, Nat.cast_zero, zero_mul]
    exact h
  rename_i hl
  obtain ⟨hlo, hhi⟩ := value_mem hl
  dsimp only
  split
  · rename_i hgreat
    rw [one_div_zero_eq]
    refine isNearest_infinity _ (le_trans ?_ hlo)
    calc (2 ^ 1024 : ℚ) ≤ 10 ^ 310 := two_pow_le_ten_pow (by norm_num)
      _ = 10 ^ (310 : ℤ) := (zpow_natCast 10 310).symm
      _ ≤ _ := zpow_le_zpow_right₀ (by norm_num) (by omega)
  split
  · rename_i hsmall
    rw [zero_eq]
    refine isNearest_zero _ (value_nonneg l) (hhi.le.trans ?_)
    calc (10 : ℚ) ^ (l.exponent + ((Nat.repr l.coefficient).length : ℤ)) ≤ 10 ^ (-331 : ℤ) :=
          zpow_le_zpow_right₀ (by norm_num) (by omega)
      _ = (10 ^ 331)⁻¹ := by rw [zpow_neg, ← zpow_natCast]; rfl
      _ ≤ (2 ^ 1075)⁻¹ := by
        gcongr
        exact two_pow_le_ten_pow (by norm_num)
      _ = 2 ^ (-1075 : ℤ) := by rw [zpow_neg, ← zpow_natCast]; rfl
  split
  · rename_i hnonneg
    have h := isNearest_ofScientific l.coefficient false l.exponent.toNat
    rw [if_neg Bool.false_ne_true, Int.toNat_of_nonneg hnonneg] at h
    exact h
  · rename_i hneg
    have h := isNearest_ofScientific l.coefficient true (-l.exponent).toNat
    rw [if_pos rfl, Int.toNat_of_nonneg (by omega), neg_neg] at h
    exact h

/-- The sign of a literal. -/
def sign (l : Literal) : Sign := if l.negative then .negative else .positive

/-- **The number of a literal is nearest to its value.** -/
theorem isNearest_toFloat (l : Literal) : IsNearest l.toFloat l.sign l.value := by
  unfold toFloat sign
  split
  · exact IsNearest.neg l.isNearest_magnitude
  · exact l.isNearest_magnitude

end Decimal.Literal

end SymbolicRegression
