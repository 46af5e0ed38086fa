import SymbolicRegression.Decimal.Shortest
import SymbolicRegression.Proofs.Float.Quotients

set_option autoImplicit false
set_option relaxedAutoImplicit false

/-!
# Shortest decimals read back

Every point of a decimal grid that is admitted for a number is rounded to that number, and the
search comes to a grid with such a point: one that is finer than half of the last bit has a point
just above the number.

## Main definitions

* `SymbolicRegression.Decimal.Scaled.value`, `SymbolicRegression.Decimal.Dyadic.value` — what
  decimals and numbers stand for.
* `SymbolicRegression.Decimal.Dyadic.Regular` — the mantissas and exponents of numbers.

## Main results

* `SymbolicRegression.Decimal.Dyadic.Regular.rounded_of_admits` — admitted points are rounded to
  the number.
* `SymbolicRegression.Decimal.Dyadic.Regular.rounded_shortest` — so is the shortest decimal.
-/

namespace SymbolicRegression.Decimal

/-- The magnitude of a decimal. -/
def Scaled.value (d : Scaled) : ℚ := d.coefficient * 10 ^ d.exponent

namespace Dyadic

/-- The magnitude of a number. -/
def value (d : Dyadic) : ℚ := d.mantissa * 2 ^ d.exponent

/-- The mantissa and the exponent of a number that is not zero. -/
structure Regular (d : Dyadic) : Prop where
  /-- The number is not zero. -/
  mantissa_pos : 0 < d.mantissa
  /-- The mantissa has at most fifty-three bits. -/
  mantissa_lt : d.mantissa < 2 ^ 53
  /-- The exponent is not less than the least one. -/
  le_exponent : -1074 ≤ d.exponent
  /-- The exponent is not greater than the greatest one. -/
  exponent_le : d.exponent ≤ 971
  /-- The mantissa has all its bits unless the exponent is least. -/
  full : 2 ^ 52 ≤ d.mantissa ∨ d.exponent = -1074
  /-- The gap below is narrow under a power of two that does not have the least exponent. -/
  narrowBelow_iff : d.narrowBelow = true ↔ d.mantissa = 2 ^ 52 ∧ -1074 < d.exponent

/-! ## Admitted points -/

/-- The quarter of the last place, in units of a power of ten. -/
lemma gridRatio_spec (d : Dyadic) (e : ℤ) : 0 < (d.gridRatio e).2 ∧
    ((d.gridRatio e).1 * 10 ^ e : ℚ) = (d.gridRatio e).2 * 2 ^ (d.exponent - 2) := by
  have hten : (10 ^ (-e).toNat * 10 ^ e : ℚ) = 10 ^ e.toNat := by
    rw [← zpow_natCast, ← zpow_natCast, ← zpow_add₀ (by norm_num)]
    congr 1
    omega
  have htwo : (2 ^ (-(d.exponent - 2)).toNat * 2 ^ (d.exponent - 2) : ℚ) =
      2 ^ (d.exponent - 2).toNat := by
    rw [← zpow_natCast, ← zpow_natCast, ← zpow_add₀ (by norm_num)]
    congr 1
    omega
  simp only [gridRatio, Nat.shiftLeft_eq, Nat.pow_eq]
  refine ⟨by positivity, ?_⟩
  push_cast
  rw [mul_right_comm, hten, mul_assoc, htwo]

/-- Points of a decimal grid are compared with quarters of the last place. -/
lemma mul_gridRatio_le_iff (d : Dyadic) (e : ℤ) (x c : ℕ) :
    (x * (d.gridRatio e).1 ≤ c * (d.gridRatio e).2 ↔
      (x * 2 ^ (d.exponent - 2) : ℚ) ≤ c * 10 ^ e) ∧
    (c * (d.gridRatio e).2 ≤ x * (d.gridRatio e).1 ↔
      (c * 10 ^ e : ℚ) ≤ x * 2 ^ (d.exponent - 2)) := by
  obtain ⟨hden, hratio⟩ := d.gridRatio_spec e
  have hden' : (0 : ℚ) < (d.gridRatio e).2 := by exact_mod_cast hden
  have hten : (0 : ℚ) < 10 ^ e := by positivity
  have hleft : (x * (d.gridRatio e).1 : ℚ) * 10 ^ e =
      x * 2 ^ (d.exponent - 2) * (d.gridRatio e).2 := by
    rw [mul_assoc, hratio]
    ring
  have hright : (c * (d.gridRatio e).2 : ℚ) * 10 ^ e = c * 10 ^ e * (d.gridRatio e).2 := by ring
  constructor
  · rw [← mul_le_mul_iff_left₀ hden', ← hleft, ← hright, mul_le_mul_iff_left₀ hten]
    exact_mod_cast Iff.rfl
  · rw [← mul_le_mul_iff_left₀ hden', ← hleft, ← hright, mul_le_mul_iff_left₀ hten]
    exact_mod_cast Iff.rfl

/-- The interval of the magnitudes that round to the number: its ends belong to it if the mantissa
is even. -/
def Surrounds (d : Dyadic) (v : ℚ) : Prop :=
  if d.mantissa % 2 = 0 then
    d.lowest * 2 ^ (d.exponent - 2) ≤ v ∧ v ≤ d.highest * 2 ^ (d.exponent - 2)
  else d.lowest * 2 ^ (d.exponent - 2) < v ∧ v < d.highest * 2 ^ (d.exponent - 2)

/-- **The points that are admitted are those of the interval.** -/
theorem admits_iff (d : Dyadic) (e : ℤ) (c : ℕ) :
    d.admits e c = true ↔ d.Surrounds (c * 10 ^ e) := by
  obtain ⟨hlow, hlow'⟩ := d.mul_gridRatio_le_iff e d.lowest c
  obtain ⟨hhigh, hhigh'⟩ := d.mul_gridRatio_le_iff e d.highest c
  unfold admits Surrounds
  dsimp only
  by_cases heven : d.mantissa % 2 = 0
  · rw [if_pos heven, if_pos heven, decide_eq_true_iff, hlow, hhigh']
  · rw [if_neg heven, if_neg heven, decide_eq_true_iff, ← not_le, ← not_le, hlow', hhigh, not_le,
      not_le]

/-- The interval in units of the last place. -/
lemma Surrounds.units {d : Dyadic} {v : ℚ} (h : d.Surrounds v) :
    (d.lowest / 4 ≤ v / 2 ^ d.exponent ∧ v / 2 ^ d.exponent ≤ d.highest / 4) ∧
      (d.mantissa % 2 ≠ 0 →
        d.lowest / 4 < v / 2 ^ d.exponent ∧ v / 2 ^ d.exponent < d.highest / 4) := by
  have hquarter : ∀ x : ℕ, (x * 2 ^ (d.exponent - 2) : ℚ) = x / 4 * 2 ^ d.exponent := by
    intro x
    rw [zpow_sub₀ (by norm_num)]
    ring
  unfold Surrounds at h
  rw [hquarter, hquarter] at h
  by_cases heven : d.mantissa % 2 = 0
  · rw [if_pos heven] at h
    refine ⟨⟨?_, ?_⟩, fun hodd => absurd heven hodd⟩
    · exact (le_div_iff₀ (by positivity)).mpr h.1
    · exact (div_le_iff₀ (by positivity)).mpr h.2
  · rw [if_neg heven] at h
    have hlow := (lt_div_iff₀ (by positivity)).mpr h.1
    have hhigh := (div_lt_iff₀ (by positivity)).mpr h.2
    exact ⟨⟨hlow.le, hhigh.le⟩, fun _ => ⟨hlow, hhigh⟩⟩

/-- The greatest quarters that round to the number. -/
lemma highest_eq (d : Dyadic) : (d.highest / 4 : ℚ) = d.mantissa + 1 / 2 := by
  unfold highest
  push_cast
  ring

namespace Regular

variable {d : Dyadic} {v : ℚ}

/-- The least quarters that round to the number. -/
lemma lowest_eq (h : d.Regular) :
    (d.lowest / 4 : ℚ) = d.mantissa - if d.narrowBelow then 1 / 4 else 1 / 2 := by
  have hpos := h.mantissa_pos
  unfold lowest
  split
  · rw [Nat.cast_sub (by omega)]
    push_cast
    ring
  · rw [Nat.cast_sub (by omega)]
    push_cast
    ring

/-- **A magnitude of the interval is rounded to the number.**

**Proof sketch.** In the binade of the number the magnitude is at most one half of the last place
away. Below a power of two the places are half as wide, and it is at most half of such a place
away from the power of two, which has an even mantissa there. -/
theorem rounded_of_surrounds (h : d.Regular) (hv : d.Surrounds v) : rounded v = d.value := by
  obtain ⟨⟨hlow, hhigh⟩, hodd⟩ := hv.units
  rw [h.lowest_eq] at hlow hodd
  rw [highest_eq] at hhigh hodd
  have hlt : (d.mantissa : ℚ) + 1 ≤ 2 ^ 53 := by exact_mod_cast h.mantissa_lt
  have hone : (1 : ℚ) ≤ d.mantissa := by exact_mod_cast h.mantissa_pos
  have hwidth : (if d.narrowBelow then 1 / 4 else 1 / 2 : ℚ) ≤ 1 / 2 := by split <;> norm_num
  have hpos : 0 < v := by
    have hunits : 0 < v / 2 ^ d.exponent := by linarith
    exact (div_pos_iff_of_pos_right (by positivity)).mp hunits
  by_cases hbinade : 2 ^ 52 ≤ v / 2 ^ d.exponent ∨ d.exponent = -1074
  · have hgrid := gridExponent_of_units hpos h.le_exponent (by linarith) hbinade
    refine rounded_unique hpos.le hgrid (abs_le.mpr ⟨by linarith, by linarith⟩) ?_
    intro htie
    by_contra hne
    obtain ⟨hlow', hhigh'⟩ := hodd fun heven => hne (Nat.even_iff.mpr heven)
    have hclose : |v / 2 ^ d.exponent - d.mantissa| < 1 / 2 :=
      abs_lt.mpr ⟨by linarith, by linarith⟩
    exact hclose.ne htie
  · push Not at hbinade
    obtain ⟨hbelow, hcoarse⟩ := hbinade
    have hfull : 2 ^ 52 ≤ d.mantissa := h.full.resolve_right hcoarse
    have hmantissa : d.mantissa = 2 ^ 52 := by
      refine le_antisymm ?_ hfull
      have hlt' : (d.mantissa : ℚ) < 2 ^ 52 + 1 := by linarith
      exact Nat.lt_succ_iff.mp (by exact_mod_cast hlt')
    have hexponent : -1074 < d.exponent := lt_of_le_of_ne h.le_exponent (Ne.symm hcoarse)
    have hnarrow := h.narrowBelow_iff.mpr ⟨hmantissa, hexponent⟩
    rw [if_pos hnarrow, hmantissa] at hlow
    push_cast at hlow
    rw [rounded_of_just_below hexponent hlow hbelow, value, hmantissa]
    push_cast
    rfl

/-- **Admitted points are rounded to the number.** -/
theorem rounded_of_admits (h : d.Regular) {e : ℤ} {c : ℕ} (hc : d.admits e c = true) :
    rounded (c * 10 ^ e) = d.value :=
  h.rounded_of_surrounds ((d.admits_iff e c).mp hc)

end Regular

/-! ## The search -/

/-- The point that is taken on a grid is admitted. -/
lemma admits_of_onGrid {tie : Tie} {d : Dyadic} {e : ℤ} {c : ℕ} (h : d.onGrid tie e = some c) :
    d.admits e c = true := by
  unfold onGrid at h
  dsimp only at h
  split at h
  · simp at h
  · rename_i hbelow _
    obtain rfl := Option.some.inj h
    exact hbelow
  · rename_i habove
    obtain rfl := Option.some.inj h
    exact habove
  · rename_i hbelow habove
    split at h
    · obtain rfl := Option.some.inj h
      exact hbelow
    · obtain rfl := Option.some.inj h
      exact habove
    · split at h
      · obtain rfl := Option.some.inj h
        exact habove
      · obtain rfl := Option.some.inj h
        split
        · exact hbelow
        · exact habove

/-- The point just above the number is admitted on a grid that is finer than half of the last
place. -/
lemma admits_above {d : Dyadic} {e : ℤ} (hfine : (10 ^ e : ℚ) < 2 ^ (d.exponent - 1)) :
    d.admits e (4 * d.mantissa * (d.gridRatio e).1 / (d.gridRatio e).2 + 1) = true := by
  obtain ⟨below, hbelow⟩ : ∃ below,
      below = 4 * d.mantissa * (d.gridRatio e).1 / (d.gridRatio e).2 := ⟨_, rfl⟩
  have hden := (d.gridRatio_spec e).1
  have hle : (below * 10 ^ e : ℚ) ≤ (4 * d.mantissa : ℕ) * 2 ^ (d.exponent - 2) := by
    refine (d.mul_gridRatio_le_iff e (4 * d.mantissa) below).2.mp ?_
    rw [hbelow]
    exact Nat.div_mul_le_self _ _
  have hlt : ((4 * d.mantissa : ℕ) * 2 ^ (d.exponent - 2) : ℚ) < (below + 1 : ℕ) * 10 ^ e := by
    refine not_le.mp ?_
    intro hle'
    have hle'' := (d.mul_gridRatio_le_iff e (4 * d.mantissa) (below + 1)).2.mpr hle'
    rw [hbelow] at hle''
    exact absurd hle'' (not_le.mpr (Nat.lt_mul_of_div_lt (Nat.lt_succ_self _) hden))
  have hpow : (0 : ℚ) < 2 ^ (d.exponent - 2) := by positivity
  have hhalf : (2 ^ (d.exponent - 1) : ℚ) = 2 * 2 ^ (d.exponent - 2) := by
    rw [show d.exponent - 1 = d.exponent - 2 + 1 by ring, zpow_add_one₀ (by norm_num), mul_comm]
  have hlow : (d.lowest * 2 ^ (d.exponent - 2) : ℚ) < (below + 1 : ℕ) * 10 ^ e := by
    refine lt_of_le_of_lt ?_ hlt
    gcongr
    unfold lowest
    split <;> omega
  have hhigh : ((below + 1 : ℕ) * 10 ^ e : ℚ) < d.highest * 2 ^ (d.exponent - 2) := by
    unfold highest
    push_cast at hle ⊢
    linarith
  rw [← hbelow, admits_iff, Surrounds]
  split
  · exact ⟨hlow.le, hhigh.le⟩
  · exact ⟨hlow, hhigh⟩

/-- **A grid that is finer than half of the last place has a point.** -/
lemma exists_onGrid {d : Dyadic} (tie : Tie) {e : ℤ}
    (hfine : (10 ^ e : ℚ) < 2 ^ (d.exponent - 1)) : ∃ c, d.onGrid tie e = some c := by
  unfold onGrid
  dsimp only
  rw [admits_above hfine]
  cases d.admits e _ with
  | false => exact ⟨_, rfl⟩
  | true =>
    dsimp only
    split
    · exact ⟨_, rfl⟩
    · exact ⟨_, rfl⟩
    · cases tie <;> exact ⟨_, rfl⟩

/-- The search ends at a grid that has a point, if there is one among those that it comes to. -/
lemma onGrid_shortestFrom {tie : Tie} {d : Dyadic} {fuel : ℕ} {e : ℤ} {k : ℕ} (hk : k < fuel)
    (h : ∃ c, d.onGrid tie (e - k) = some c) :
    d.onGrid tie (d.shortestFrom tie fuel e).exponent =
      some (d.shortestFrom tie fuel e).coefficient := by
  induction fuel generalizing e k with
  | zero => omega
  | succ fuel ih =>
    rw [shortestFrom]
    split
    · assumption
    · rename_i hnone
      cases k with
      | zero =>
        obtain ⟨c, hc⟩ := h
        rw [Nat.cast_zero, sub_zero, hnone] at hc
        exact absurd hc (by simp)
      | succ k =>
        refine ih (k := k) (by omega) ?_
        rwa [sub_sub, add_comm 1, ← Nat.cast_add_one]

/-- Powers of ten below powers of two. -/
lemma ten_zpow_le_two_zpow {j k : ℤ} (h : 0 ≤ k ∧ 10 * k ≤ 3 * j ∨ k < 0 ∧ 93 * k ≤ 28 * j) :
    (10 ^ k : ℚ) ≤ 2 ^ j := by
  rcases h with ⟨hk, hle⟩ | ⟨hk, hle⟩
  · obtain ⟨n, rfl⟩ := Int.eq_ofNat_of_zero_le hk
    obtain ⟨i, rfl⟩ := Int.eq_ofNat_of_zero_le (show 0 ≤ j by omega)
    rw [zpow_natCast, zpow_natCast]
    refine le_of_pow_le_pow_left₀ (show 3 ≠ 0 by norm_num) (by positivity) ?_
    calc ((10 ^ n) ^ 3 : ℚ) = (10 ^ 3) ^ n := by rw [← pow_mul, ← pow_mul, mul_comm]
      _ ≤ (2 ^ 10) ^ n := by
        gcongr
        norm_num
      _ = 2 ^ (10 * n) := (pow_mul 2 10 n).symm
      _ ≤ 2 ^ (3 * i) := pow_le_pow_right₀ (by norm_num) (by omega)
      _ = (2 ^ i) ^ 3 := by rw [← pow_mul, mul_comm]
  · obtain ⟨n, hn⟩ := Int.eq_ofNat_of_zero_le (show 0 ≤ -k by omega)
    obtain rfl : k = -n := by omega
    rcases le_or_gt 0 j with hj | hj
    · exact (zpow_le_one_of_nonpos₀ (by norm_num) (by omega)).trans (one_le_zpow₀ (by norm_num) hj)
    · obtain ⟨i, hi⟩ := Int.eq_ofNat_of_zero_le (show 0 ≤ -j by omega)
      obtain rfl : j = -i := by omega
      rw [zpow_neg, zpow_neg, zpow_natCast, zpow_natCast]
      gcongr
      exact two_pow_le_ten_pow (by omega)

/-- The nineteenth grid below the first one is finer than half of the last place. -/
lemma ten_zpow_upperExponent_lt {d : Dyadic} (h : d.Regular) :
    (10 ^ (d.upperExponent - (19 : ℕ)) : ℚ) < 2 ^ (d.exponent - 1) := by
  have hlog : d.mantissa.log2 < 53 := (Nat.log2_lt h.mantissa_pos.ne').mpr h.mantissa_lt
  have hle := h.le_exponent
  have hle' := h.exponent_le
  calc (10 ^ (d.upperExponent - (19 : ℕ)) : ℚ) ≤ 2 ^ (d.exponent - 2) := by
        apply ten_zpow_le_two_zpow
        unfold upperExponent
        push_cast
        omega
    _ < 2 ^ (d.exponent - 1) := zpow_lt_zpow_right₀ (by norm_num) (by omega)

/-- **The shortest decimal is rounded to the number.** -/
theorem Regular.rounded_shortest {d : Dyadic} (h : d.Regular) (tie : Tie) :
    rounded (d.shortest tie).value = d.value :=
  h.rounded_of_admits (admits_of_onGrid
    (onGrid_shortestFrom (by norm_num) (exists_onGrid tie (ten_zpow_upperExponent_lt h))))

/-- The shortest decimal is not zero. -/
theorem Regular.coefficient_shortest_ne {d : Dyadic} (h : d.Regular) (tie : Tie) :
    (d.shortest tie).coefficient ≠ 0 := by
  intro hzero
  have hrounded := h.rounded_shortest tie
  rw [Scaled.value, hzero, Nat.cast_zero, zero_mul, rounded_zero, value] at hrounded
  have hpos := h.mantissa_pos
  exact absurd hrounded.symm (by positivity)

end Dyadic

end SymbolicRegression.Decimal
