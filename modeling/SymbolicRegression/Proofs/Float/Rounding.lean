import Mathlib.Algebra.Order.Field.Power
import Mathlib.Algebra.Order.Floor.Semiring
import Mathlib.Data.Int.Log
import Mathlib.Data.Rat.Floor
import Mathlib.Tactic.FieldSimp
import Mathlib.Tactic.Linarith
import Mathlib.Tactic.NormNum
import Mathlib.Tactic.Positivity
import Mathlib.Tactic.Ring

set_option autoImplicit false
set_option relaxedAutoImplicit false

/-!
# Rounding to nearest

A magnitude, a rational number that is not negative, is rounded to a grid whose width is a power
of two: fifty-three bits below the magnitude, but not finer than the finest grid of all. On the
grid the nearest point is taken, and of two equally near points the one with the even multiple.

## Main definitions

* `SymbolicRegression.roundEven` — the nearest whole number, even if two are equally near.
* `SymbolicRegression.gridExponent` — the grid of a magnitude.
* `SymbolicRegression.rounded` — the nearest point of the grid.

## Main results

* `SymbolicRegression.roundEven_unique` — what determines the nearest whole number.
* `SymbolicRegression.rounded_mono` — rounding is monotone.
* `SymbolicRegression.rounded_grid` — points of a grid are not moved.
* `SymbolicRegression.rounded_unique` — what determines the nearest point of a grid.
-/

namespace SymbolicRegression

/-! ## Whole numbers -/

/-- The whole number nearest to a magnitude, the even one if two are equally near. -/
def roundEven (y : ℚ) : ℕ :=
  if y - ⌊y⌋₊ < 1 / 2 ∨ y - ⌊y⌋₊ = 1 / 2 ∧ Even ⌊y⌋₊ then ⌊y⌋₊ else ⌊y⌋₊ + 1

variable {x y : ℚ} {n : ℕ}

/-- The nearest whole number is at most one half away, and even if it is that far. -/
theorem roundEven_spec (hy : 0 ≤ y) :
    |y - roundEven y| ≤ 1 / 2 ∧ (|y - roundEven y| = 1 / 2 → Even (roundEven y)) := by
  have hfloor := Nat.floor_le hy
  have hceil := Nat.lt_floor_add_one y
  unfold roundEven
  split
  · rename_i hdown
    rw [abs_of_nonneg (by linarith)]
    rcases hdown with hlt | ⟨htie, heven⟩
    · exact ⟨hlt.le, fun heq => absurd heq hlt.ne⟩
    · exact ⟨htie.le, fun _ => heven⟩
  · rename_i hup
    push Not at hup
    obtain ⟨hhalf, htie⟩ := hup
    push_cast
    rw [abs_of_nonpos (by linarith)]
    refine ⟨by linarith, ?_⟩
    intro heq
    have hodd : ¬ Even ⌊y⌋₊ := htie (by linarith)
    exact Nat.even_add_one.mpr hodd

/-- **Only one whole number is at most one half away and even if it is that far.**

**Proof sketch.** Two such numbers are at most one apart. If they were not equal, they would be
consecutive and both one half away, hence both even. -/
theorem eq_of_abs_sub_le {a b : ℕ} (ha : |y - a| ≤ 1 / 2) (ha' : |y - a| = 1 / 2 → Even a)
    (hb : |y - b| ≤ 1 / 2) (hb' : |y - b| = 1 / 2 → Even b) : a = b := by
  wlog hab : a < b generalizing a b
  · rcases Nat.lt_or_ge b a with hba | hba
    · exact (this hb hb' ha ha' hba).symm
    · omega
  have hab' : (a : ℚ) + 1 ≤ b := by exact_mod_cast hab
  have ha₁ := abs_le.mp ha
  have hb₁ := abs_le.mp hb
  have hya : y - a = 1 / 2 := by linarith
  have hyb : y - b = -(1 / 2) := by linarith
  have hnext : b = a + 1 := by
    have : (b : ℚ) = a + 1 := by linarith
    exact_mod_cast this
  have hevenA : Even a := ha' (by rw [hya]; norm_num)
  have hevenB : Even b := hb' (by rw [hyb]; norm_num)
  rw [hnext, Nat.even_add_one] at hevenB
  exact absurd hevenA hevenB

/-- **What determines the nearest whole number.** -/
theorem roundEven_unique (hy : 0 ≤ y) (hn : |y - n| ≤ 1 / 2) (hn' : |y - n| = 1 / 2 → Even n) :
    roundEven y = n :=
  eq_of_abs_sub_le (roundEven_spec hy).1 (roundEven_spec hy).2 hn hn'

/-- A whole number is nearest to itself. -/
@[simp] theorem roundEven_natCast (n : ℕ) : roundEven (n : ℚ) = n :=
  roundEven_unique (Nat.cast_nonneg n) (by simp) (by simp)

/-- A power of two is nearest to itself. -/
theorem roundEven_two_pow (k : ℕ) : roundEven (2 ^ k : ℚ) = 2 ^ k := by
  have h := roundEven_natCast (2 ^ k)
  rwa [Nat.cast_pow, Nat.cast_ofNat] at h

/-- A number less than one half above a whole number is not rounded beyond that. -/
theorem roundEven_le (hy : 0 ≤ y) (h : y < n + 1 / 2) : roundEven y ≤ n := by
  by_contra hlt
  have hlt' : (n : ℚ) + 1 ≤ roundEven y := by exact_mod_cast not_le.mp hlt
  have hclose := abs_le.mp (roundEven_spec hy).1
  linarith

/-- **Rounding to whole numbers is monotone.** -/
theorem roundEven_mono (hx : 0 ≤ x) (hxy : x ≤ y) : roundEven x ≤ roundEven y := by
  by_contra hlt
  have hlt' : (roundEven y : ℚ) + 1 ≤ roundEven x := by exact_mod_cast not_le.mp hlt
  obtain ⟨hclosex, htiex⟩ := roundEven_spec hx
  obtain ⟨hclosey, htiey⟩ := roundEven_spec (hx.trans hxy)
  have hx' := abs_le.mp hclosex
  have hy' := abs_le.mp hclosey
  -- the two numbers meet half way, so both neighbours are nearest to it
  have heq : x = y := by linarith
  rw [heq] at hlt
  exact hlt le_rfl

/-! ## Grids -/

/-- The grid of a magnitude: fifty-three bits, unless that were finer than the finest grid. -/
def gridExponent (x : ℚ) : ℤ := max (Int.log 2 x - 52) (-1074)

/-- A magnitude in units of its grid. -/
def inUnits (x : ℚ) : ℚ := x / 2 ^ gridExponent x

/-- The point of its grid that is nearest to a magnitude. -/
def rounded (x : ℚ) : ℚ := roundEven (inUnits x) * 2 ^ gridExponent x

/-- The grid of a magnitude in a given binade. -/
lemma gridExponent_of_mem {k : ℤ} (hlo : (2 : ℚ) ^ k ≤ x) (hhi : x < 2 ^ (k + 1)) :
    gridExponent x = max (k - 52) (-1074) := by
  have hpos : 0 < x := lt_of_lt_of_le (by positivity) hlo
  have hge : k ≤ Int.log 2 x :=
    (Int.zpow_le_iff_le_log (by norm_num) hpos).mp (by exact_mod_cast hlo)
  have hlt : Int.log 2 x < k + 1 :=
    (Int.lt_zpow_iff_log_lt (by norm_num) hpos).mp (by exact_mod_cast hhi)
  rw [gridExponent, show Int.log 2 x = k by omega]

/-- The grid of a magnitude that has fifty-three bits in its units, or lies on the finest grid. -/
lemma gridExponent_of_units {g : ℤ} (hx : 0 < x) (hg : -1074 ≤ g) (hhi : x / 2 ^ g < 2 ^ 53)
    (hlo : 2 ^ 52 ≤ x / 2 ^ g ∨ g = -1074) : gridExponent x = g := by
  have hlt : Int.log 2 x < g + 53 := by
    rw [div_lt_iff₀ (by positivity), ← zpow_natCast, ← zpow_add₀ (by norm_num)] at hhi
    refine (Int.lt_zpow_iff_log_lt (by norm_num) hx).mp ?_
    rw [add_comm]
    exact_mod_cast hhi
  rcases hlo with hlo | rfl
  · have hge : g + 52 ≤ Int.log 2 x := by
      rw [le_div_iff₀ (by positivity), ← zpow_natCast, ← zpow_add₀ (by norm_num)] at hlo
      refine (Int.zpow_le_iff_le_log (by norm_num) hx).mp ?_
      rw [add_comm]
      exact_mod_cast hlo
    unfold gridExponent
    omega
  · unfold gridExponent
    omega

/-- A magnitude of fifty-three bits has a grid that is not finer than its last bit. -/
lemma le_gridExponent_of_le {g : ℤ} (h : 2 ^ 52 * 2 ^ g ≤ x) : g ≤ gridExponent x := by
  have hpos : 0 < x := lt_of_lt_of_le (by positivity) h
  have hpow : (2 : ℚ) ^ (g + 52) ≤ x := by
    rwa [add_comm, zpow_add₀ (by norm_num)]
  have hlog : g + 52 ≤ Int.log 2 x :=
    (Int.zpow_le_iff_le_log (by norm_num) hpos).mp (by exact_mod_cast hpow)
  unfold gridExponent
  omega

/-- The grid of a smaller magnitude is not coarser. -/
lemma gridExponent_mono (hx : 0 < x) (hxy : x ≤ y) : gridExponent x ≤ gridExponent y := by
  have hlog : Int.log 2 x ≤ Int.log 2 y := Int.log_mono_right hx hxy
  unfold gridExponent
  omega

/-- No grid is finer than the finest one. -/
lemma le_gridExponent (x : ℚ) : -1074 ≤ gridExponent x := le_max_right _ _

/-- A magnitude has at most fifty-three bits before the point when counted in units of its grid. -/
lemma inUnits_lt (x : ℚ) : inUnits x < 2 ^ 53 := by
  have hlt : x < (2 : ℚ) ^ (Int.log 2 x + 1) := by
    exact_mod_cast Int.lt_zpow_succ_log_self (by norm_num : 1 < 2) x
  rw [inUnits, div_lt_iff₀ (by positivity), ← zpow_natCast, ← zpow_add₀ (by norm_num)]
  refine lt_of_lt_of_le hlt (zpow_le_zpow_right₀ (by norm_num) ?_)
  have := le_max_left (Int.log 2 x - 52) (-1074)
  unfold gridExponent
  push_cast
  omega

/-- It has exactly that many unless the grid is the finest one. -/
lemma le_inUnits (hx : 0 < x) (hgrid : -1074 < gridExponent x) : 2 ^ 52 ≤ inUnits x := by
  have hle : (2 : ℚ) ^ Int.log 2 x ≤ x := by
    exact_mod_cast Int.zpow_log_le_self (by norm_num : 1 < 2) hx
  rw [inUnits, le_div_iff₀ (by positivity), ← zpow_natCast, ← zpow_add₀ (by norm_num)]
  refine le_trans (zpow_le_zpow_right₀ (by norm_num) ?_) hle
  unfold gridExponent at hgrid ⊢
  push_cast
  omega

/-- Counting in units of the grid. -/
lemma inUnits_mul (x : ℚ) : inUnits x * 2 ^ gridExponent x = x :=
  div_mul_cancel₀ x (by positivity)

/-- A magnitude in units of its grid is not negative. -/
lemma inUnits_nonneg (hx : 0 ≤ x) : 0 ≤ inUnits x := by
  unfold inUnits
  positivity

/-- A magnitude is rounded to at most fifty-three bits, or to the power of two beyond them. -/
lemma roundEven_inUnits_le (hx : 0 ≤ x) : roundEven (inUnits x) ≤ 2 ^ 53 := by
  rw [← roundEven_two_pow 53]
  exact roundEven_mono (inUnits_nonneg hx) (inUnits_lt x).le

/-- A magnitude on a coarser grid than the finest one is rounded to all of these bits. -/
lemma le_roundEven_inUnits (hx : 0 < x) (hgrid : -1074 < gridExponent x) :
    2 ^ 52 ≤ roundEven (inUnits x) := by
  rw [← roundEven_two_pow 52]
  exact roundEven_mono (by positivity) (le_inUnits hx hgrid)

/-- Nothing is nearest to nothing. -/
@[simp] theorem rounded_zero : rounded 0 = 0 := by
  simp [rounded, inUnits, roundEven]

/-- A magnitude that is a point of its grid is not moved. -/
lemma rounded_of_inUnits (h : inUnits x = n) : rounded x = x := by
  rw [rounded, h, roundEven_natCast, ← h, inUnits_mul]

/-- A point of a grid is a point of every finer grid. -/
lemma grid_eq {g g' : ℤ} (hg : g' ≤ g) :
    (n * 2 ^ g : ℚ) = (n * 2 ^ (g - g').toNat : ℕ) * 2 ^ g' := by
  have hshift : ((g - g').toNat : ℤ) = g - g' := Int.toNat_of_nonneg (by omega)
  rw [Nat.cast_mul, Nat.cast_pow, Nat.cast_ofNat, mul_assoc, ← zpow_natCast, hshift,
    ← zpow_add₀ (by norm_num), sub_add_cancel]

/-- A magnitude that is a point of a coarser grid is not moved. -/
lemma rounded_of_grid {g : ℤ} (hg : gridExponent x ≤ g) (h : x = n * 2 ^ g) : rounded x = x := by
  refine rounded_of_inUnits (n := n * 2 ^ (g - gridExponent x).toNat) ?_
  rw [inUnits, div_eq_iff (by positivity), ← grid_eq hg, h]

/-- A magnitude is not rounded beyond a point of a coarser grid above it. -/
lemma rounded_le_grid (hx : 0 ≤ x) {g : ℤ} (hg : gridExponent x ≤ g) (h : x ≤ n * 2 ^ g) :
    rounded x ≤ n * 2 ^ g := by
  rw [grid_eq hg] at h ⊢
  have hunits : inUnits x ≤ (n * 2 ^ (g - gridExponent x).toNat : ℕ) :=
    (div_le_iff₀ (by positivity)).mpr h
  have hround := roundEven_mono (inUnits_nonneg hx) hunits
  rw [roundEven_natCast] at hround
  unfold rounded
  gcongr

/-- A magnitude is not rounded beyond a point of a coarser grid below it. -/
lemma grid_le_rounded {g : ℤ} (hg : gridExponent x ≤ g) (h : n * 2 ^ g ≤ x) :
    n * 2 ^ g ≤ rounded x := by
  rw [grid_eq hg] at h ⊢
  have hunits : ((n * 2 ^ (g - gridExponent x).toNat : ℕ) : ℚ) ≤ inUnits x :=
    (le_div_iff₀ (by positivity)).mpr h
  have hround := roundEven_mono (Nat.cast_nonneg _) hunits
  rw [roundEven_natCast] at hround
  unfold rounded
  gcongr

/-- **Points of a grid are not moved**: a magnitude of at most fifty-three bits that is a multiple
of a grid width is its own nearest point. -/
theorem rounded_grid {g : ℤ} (hg : -1074 ≤ g) (hn : n ≤ 2 ^ 53) :
    rounded (n * 2 ^ g) = n * 2 ^ g := by
  rcases Nat.eq_zero_or_pos n with rfl | hpos
  · simp
  have hx : (0 : ℚ) < n * 2 ^ g := by positivity
  rcases hn.lt_or_eq with hlt | rfl
  · have hbinade : (n * 2 ^ g : ℚ) < 2 ^ (g + 53) := by
      rw [add_comm, zpow_add₀ (by norm_num)]
      gcongr
      exact_mod_cast hlt
    have hlog : Int.log 2 (n * 2 ^ g : ℚ) < g + 53 :=
      (Int.lt_zpow_iff_log_lt (by norm_num) hx).mp (by exact_mod_cast hbinade)
    refine rounded_of_grid (g := g) ?_ rfl
    unfold gridExponent
    omega
  · -- a power of two is a point of the grid of the next binade
    have hpow : ((2 ^ 53 : ℕ) * 2 ^ g : ℚ) = 2 ^ (g + 53) := by
      rw [Nat.cast_pow, Nat.cast_ofNat, ← zpow_natCast, ← zpow_add₀ (by norm_num), add_comm]
      rfl
    have hgrid : gridExponent ((2 ^ 53 : ℕ) * 2 ^ g) = g + 1 := by
      rw [hpow, gridExponent_of_mem le_rfl (zpow_lt_zpow_right₀ (by norm_num) (by omega))]
      omega
    refine rounded_of_grid (n := 2 ^ 52) hgrid.le ?_
    rw [hpow, Nat.cast_pow, Nat.cast_ofNat, ← zpow_natCast, ← zpow_add₀ (by norm_num)]
    congr 1
    push_cast
    omega

/-- A rounded magnitude is not negative. -/
lemma rounded_nonneg (x : ℚ) : 0 ≤ rounded x := by
  unfold rounded
  positivity

/-- A rounded magnitude is not moved again. -/
theorem rounded_rounded (hx : 0 ≤ x) : rounded (rounded x) = rounded x :=
  rounded_grid (le_gridExponent x) (roundEven_inUnits_le hx)

/-- **Rounding is monotone.**

**Proof sketch.** On one grid whole numbers are rounded. Between two grids lies a power of two that
is a point of both, below which the smaller magnitude stays and above which the greater one does. -/
theorem rounded_mono (hx : 0 ≤ x) (hxy : x ≤ y) : rounded x ≤ rounded y := by
  rcases hx.eq_or_lt with rfl | hpos
  · rw [rounded_zero, rounded]
    positivity
  rcases (gridExponent_mono hpos hxy).eq_or_lt with hgrid | hgrid
  · have hunits : inUnits x ≤ inUnits y := by
      unfold inUnits
      rw [hgrid]
      gcongr
    have hround := roundEven_mono (inUnits_nonneg hx) hunits
    unfold rounded
    rw [hgrid]
    gcongr
  · have hcoarse : -1074 < gridExponent y := lt_of_le_of_lt (le_gridExponent x) hgrid
    have hbelow : (2 ^ 52 : ℕ) * 2 ^ gridExponent y ≤ y := by
      have h := le_inUnits (hpos.trans_le hxy) hcoarse
      rw [inUnits, le_div_iff₀ (by positivity)] at h
      exact_mod_cast h
    have habove : x ≤ (2 ^ 52 : ℕ) * 2 ^ gridExponent y := by
      have h := inUnits_lt x
      rw [inUnits, div_lt_iff₀ (by positivity)] at h
      calc x ≤ 2 ^ 53 * 2 ^ gridExponent x := h.le
        _ = (2 ^ 52 : ℕ) * 2 ^ (gridExponent x + 1) := by
          rw [zpow_add_one₀ (by norm_num)]
          push_cast
          ring
        _ ≤ (2 ^ 52 : ℕ) * 2 ^ gridExponent y := by
          gcongr
          · norm_num
          · exact hgrid
    exact (rounded_le_grid hx hgrid.le habove).trans (grid_le_rounded le_rfl hbelow)

/-- A magnitude is not rounded beyond a point of fifty-three bits if it is less than one half of
the last bit above it. -/
lemma rounded_le_of_lt_half {g : ℤ} (hx : 0 ≤ x) (hg : gridExponent x ≤ g) (hn : 2 ^ 52 ≤ n)
    (h : x < (n + 1 / 2) * 2 ^ g) : rounded x ≤ n * 2 ^ g := by
  rcases hg.eq_or_lt with heq | hlt
  · have hunits : inUnits x < n + 1 / 2 := by
      rwa [inUnits, div_lt_iff₀ (by positivity), heq]
    have hround := roundEven_le (inUnits_nonneg hx) hunits
    rw [rounded, heq]
    gcongr
  · refine rounded_le_grid hx hlt.le ?_
    have hbits := inUnits_lt x
    rw [inUnits, div_lt_iff₀ (by positivity)] at hbits
    calc x ≤ 2 ^ 53 * 2 ^ gridExponent x := hbits.le
      _ = 2 ^ 52 * 2 ^ (gridExponent x + 1) := by
        rw [zpow_add_one₀ (by norm_num)]
        ring
      _ ≤ n * 2 ^ g := by
        gcongr
        · exact_mod_cast hn
        · norm_num
        · exact hlt

/-- **What determines the nearest point of a grid.** -/
theorem rounded_unique {g : ℤ} (hx : 0 ≤ x) (hg : gridExponent x = g)
    (hn : |x / 2 ^ g - n| ≤ 1 / 2) (htie : |x / 2 ^ g - n| = 1 / 2 → Even n) :
    rounded x = n * 2 ^ g := by
  subst hg
  rw [rounded, roundEven_unique (inUnits_nonneg hx) hn htie]

/-- A magnitude just below a power of two is rounded up to it: it is at most one half of its last
bit away, and the power of two is even in units of that bit. -/
lemma rounded_of_just_below {e : ℤ} (he : -1074 < e) (hlow : 2 ^ 52 - 1 / 4 ≤ x / 2 ^ e)
    (hhigh : x / 2 ^ e < 2 ^ 52) : rounded x = 2 ^ 52 * 2 ^ e := by
  have hpos : 0 < x := by
    have hunits : 0 < x / 2 ^ e := by linarith
    exact (div_pos_iff_of_pos_right (by positivity)).mp hunits
  have hdouble : x / 2 ^ (e - 1) = 2 * (x / 2 ^ e) := by
    rw [zpow_sub_one₀ (by norm_num)]
    field_simp
  have hgrid : gridExponent x = e - 1 :=
    gridExponent_of_units hpos (by omega) (by linarith) (.inl (by linarith))
  have hround : rounded x = (2 ^ 53 : ℕ) * 2 ^ (e - 1) := by
    refine rounded_unique hpos.le hgrid ?_ fun _ => Nat.even_pow.mpr ⟨even_two, by norm_num⟩
    rw [hdouble]
    push_cast
    exact abs_le.mpr ⟨by linarith, by linarith⟩
  rw [hround, zpow_sub_one₀ (by norm_num)]
  push_cast
  ring

/-- A power of two that is not below the finest grid is not moved. -/
lemma rounded_two_zpow {k : ℤ} (hk : -1074 ≤ k) : rounded (2 ^ k) = 2 ^ k := by
  simpa using @rounded_grid 1 k hk (by norm_num)

/-- A magnitude of at most half the width of the finest grid is rounded to nothing. -/
lemma rounded_eq_zero (hx : 0 ≤ x) (h : x ≤ 2 ^ (-1075 : ℤ)) : rounded x = 0 := by
  have hhalf : inUnits x ≤ 1 / 2 := by
    rw [inUnits, div_le_iff₀ (by positivity)]
    calc x ≤ 2 ^ (-1075 : ℤ) := h
      _ = 1 / 2 * 2 ^ (-1074 : ℤ) := by
        rw [show (-1075 : ℤ) = -1 + -1074 by norm_num, zpow_add₀ (by norm_num)]
        norm_num
      _ ≤ 1 / 2 * 2 ^ gridExponent x := by
        gcongr
        · norm_num
        · exact le_gridExponent x
  have hzero : roundEven (inUnits x) = 0 := by
    refine roundEven_unique (inUnits_nonneg hx) ?_ (fun _ => by simp)
    rw [Nat.cast_zero, sub_zero, abs_of_nonneg (inUnits_nonneg hx)]
    exact hhalf
  rw [rounded, hzero, Nat.cast_zero, zero_mul]

end SymbolicRegression
