import SymbolicRegression.Proofs.Breeding.Constants
import SymbolicRegression.Proofs.CaseFile.Reading
import SymbolicRegression.Proofs.Float.Quotients

set_option autoImplicit false
set_option relaxedAutoImplicit false

/-!
# The range of random constants

A constant is the lower end of a range plus a share of its width, all of it rounded. The width may
be rounded up, but a share of it that is less than the whole is then rounded back, so the exact sum
stays between the ends of the range and a constant of a problem that can be run is finite.

## Main results

* `SymbolicRegression.isNumber_unitOfWord` — the share that a word selects.
* `SymbolicRegression.rounded_share_le` — a share of a rounded width is within the width.
* `SymbolicRegression.Problem.Runnable.constantOf_between` — what a constant is nearest to.
* `SymbolicRegression.Problem.Runnable.isFinite_constantOf` — constants are finite.
-/

namespace SymbolicRegression

open Float.Model.UnpackedFloat

/-! ## Shares -/

/-- The number of equal parts that the unit interval is divided into. -/
lemma isNumber_parts : IsNumber 9007199254740992.0 .positive (2 ^ 53) :=
  isNumber_ofScientific (by norm_num) (by exact_mod_cast @rounded_two_zpow 53 (by norm_num))
    (pow_lt_pow_right₀ (by norm_num) (by norm_num))

/-- **The share that a word selects** is a whole number of parts, fewer than all of them. -/
theorem isNumber_unitOfWord (w : UInt64) :
    ∃ k < 2 ^ 53, IsNumber (Draw.unitOfWord w) .positive ((k : ℕ) / 2 ^ 53) := by
  have hk : (w >>> 11).toNat < 2 ^ 53 := by
    rw [UInt64.toNat_shiftRight]
    have := w.toNat_lt
    simp [Nat.shiftRight_eq_div_pow]
    omega
  refine ⟨(w >>> 11).toNat, hk, ?_⟩
  have h := (isNumber_toFloat hk.le).div isNumber_parts (by norm_num)
  have hself : rounded ((w >>> 11).toNat / 2 ^ 53) = (w >>> 11).toNat / 2 ^ 53 := by
    have hgrid := @rounded_grid (w >>> 11).toNat (-53) (by norm_num) hk.le
    rwa [zpow_neg, ← div_eq_mul_inv] at hgrid
  have hone : ((w >>> 11).toNat / 2 ^ 53 : ℚ) < 2 ^ 1024 := by
    calc ((w >>> 11).toNat / 2 ^ 53 : ℚ) ≤ 1 := by
          rw [div_le_one (by positivity)]
          exact_mod_cast hk.le
      _ < 2 ^ 1024 := one_lt_pow₀ (by norm_num) (by norm_num)
  have hnumber := h.isNumber (by rwa [hself])
  rwa [hself] at hnumber

/-- A share of a rounded width is within the rounded width. -/
lemma rounded_share_le_rounded {width : ℚ} {k : ℕ} (hwidth : 0 ≤ width) (hk : k < 2 ^ 53) :
    rounded (rounded width * (k / 2 ^ 53)) ≤ rounded width := by
  have hone : (k / 2 ^ 53 : ℚ) ≤ 1 := by
    rw [div_le_one (by positivity)]
    exact_mod_cast hk.le
  calc rounded (rounded width * (k / 2 ^ 53)) ≤ rounded (rounded width) :=
        rounded_mono (mul_nonneg (rounded_nonneg width) (by positivity))
          (mul_le_of_le_one_right (rounded_nonneg width) hone)
    _ = rounded width := rounded_rounded hwidth

/-- A share of a width that is rounded up is within the width, if the width has all its bits. -/
lemma rounded_share_le_of_lt {width : ℚ} {k : ℕ} (hpos : 0 < width)
    (hcoarse : -1074 < gridExponent width) (hup : width < rounded width) (hk : k < 2 ^ 53) :
    rounded (rounded width * (k / 2 ^ 53)) ≤ width := by
  have hunits : inUnits width < roundEven (inUnits width) := by
    rw [inUnits, div_lt_iff₀ (by positivity)]
    exact hup
  have hbits := le_inUnits hpos hcoarse
  have hclose := abs_le.mp (roundEven_spec (inUnits_nonneg hpos.le)).1
  -- the next multiple below the rounded width is a point of the grid with all its bits
  obtain ⟨r, hr⟩ : ∃ r, roundEven (inUnits width) = r + 1 := by
    refine Nat.exists_eq_add_one.mpr ?_
    have hgreat : (0 : ℚ) < roundEven (inUnits width) := by linarith
    exact_mod_cast hgreat
  have hrounded : rounded width = (r + 1) * 2 ^ gridExponent width := by
    rw [rounded, hr, Nat.cast_add_one]
  rw [hr, Nat.cast_add_one] at hunits hclose
  have hfull : 2 ^ 52 ≤ r := by
    have hlt : (2 ^ 52 : ℚ) < r + 1 := lt_of_le_of_lt hbits hunits
    exact_mod_cast Nat.lt_succ_iff.mp (by exact_mod_cast hlt)
  have hfull' : (2 ^ 52 : ℚ) ≤ r := by exact_mod_cast hfull
  have hshare : (k / 2 ^ 53 : ℚ) ≤ 1 - 1 / 2 ^ 53 := by
    rw [le_sub_iff_add_le, ← add_div, div_le_one (by positivity)]
    exact_mod_cast hk
  have hlt : rounded width * (k / 2 ^ 53) < (r + 1 / 2) * 2 ^ gridExponent width := by
    rw [hrounded, mul_right_comm]
    gcongr
    calc ((r + 1) * (k / 2 ^ 53) : ℚ) ≤ (r + 1) * (1 - 1 / 2 ^ 53) := by gcongr
      _ < r + 1 / 2 := by linarith
  have hhalf : (r + 1 / 2) * 2 ^ gridExponent width ≤ width := by
    rw [← le_div_iff₀ (by positivity)]
    show _ ≤ inUnits width
    linarith
  have hnonneg : 0 ≤ rounded width * (k / 2 ^ 53) :=
    mul_nonneg (rounded_nonneg width) (by positivity)
  rcases hnonneg.eq_or_lt with hzero | hsome
  · rw [← hzero, rounded_zero]
    exact hpos.le
  · have hgrid := gridExponent_mono hsome (hlt.le.trans hhalf)
    calc rounded (rounded width * (k / 2 ^ 53)) ≤ r * 2 ^ gridExponent width :=
          rounded_le_of_lt_half hnonneg hgrid hfull hlt
      _ ≤ (r + 1 / 2) * 2 ^ gridExponent width := by
        gcongr
        linarith
      _ ≤ width := hhalf

/-- **A share of a rounded width is within the width**, if the width is a point of the finest grid.

**Proof sketch.** A width that is rounded up has all its bits, and a share that is less than the
whole lies more than one half of the last bit below it. So the share is rounded to a multiple of
that bit below the rounded width, or to something less. -/
theorem rounded_share_le {width : ℚ} {n k : ℕ} (hn : width = n * 2 ^ (-1074 : ℤ))
    (hk : k < 2 ^ 53) : rounded (rounded width * (k / 2 ^ 53)) ≤ width := by
  have hwidth : 0 ≤ width := by
    rw [hn]
    positivity
  rcases le_or_gt (rounded width) width with hdown | hup
  · exact (rounded_share_le_rounded hwidth hk).trans hdown
  · have hcoarse : -1074 < gridExponent width := by
      refine lt_of_le_of_ne (le_gridExponent width) fun hfinest => hup.ne ?_
      exact (rounded_of_grid hfinest.ge hn).symm
    have hpos : 0 < width := by
      refine lt_of_le_of_ne hwidth ?_
      intro hzero
      rw [← hzero, rounded_zero] at hup
      exact lt_irrefl 0 hup
    exact rounded_share_le_of_lt hpos hcoarse hup hk

/-! ## Constants -/

/-- The magnitude of a number is a point of the finest grid. -/
lemma IsNumber.exists_grid {a : Float} {s : Sign} {y : ℚ} (h : IsNumber a s y) :
    ∃ n : ℕ, y = n * 2 ^ (-1074 : ℤ) := by
  unfold IsNumber at h
  cases hu : unpacked a with
  | zero =>
    rw [hu] at h
    exact ⟨0, by rw [h.2, Nat.cast_zero, zero_mul]⟩
  | finite s' m e hm =>
    rw [hu] at h
    obtain ⟨-, rfl, -, he, -⟩ := h
    exact ⟨_, grid_eq he⟩
  | infinity => exact (hu ▸ h).elim
  | notANumber => exact (hu ▸ h).elim

/-- A number with a sign is a whole multiple of the finest grid. -/
lemma IsNumber.exists_signed_grid {a : Float} {s : Sign} {y : ℚ} (h : IsNumber a s y) :
    ∃ n : ℤ, signed s y = n * 2 ^ (-1074 : ℤ) := by
  obtain ⟨n, rfl⟩ := h.exists_grid
  exact ⟨s.apply n, signed_mul_zpow s n _⟩

/-- The distance of two numbers is a whole multiple of the finest grid. -/
lemma IsNumber.exists_distance_grid {a b : Float} {s₁ s₂ : Sign} {y₁ y₂ : ℚ}
    (ha : IsNumber a s₁ y₁) (hb : IsNumber b s₂ y₂) (hle : signed s₁ y₁ ≤ signed s₂ y₂) :
    ∃ n : ℕ, signed s₂ y₂ - signed s₁ y₁ = n * 2 ^ (-1074 : ℤ) := by
  obtain ⟨n₁, hn₁⟩ := ha.exists_signed_grid
  obtain ⟨n₂, hn₂⟩ := hb.exists_signed_grid
  have hdiff : signed s₂ y₂ - signed s₁ y₁ = (n₂ - n₁ : ℤ) * 2 ^ (-1074 : ℤ) := by
    rw [hn₁, hn₂, Int.cast_sub, sub_mul]
  have hn : 0 ≤ n₂ - n₁ := by
    rw [← sub_nonneg, hdiff] at hle
    exact_mod_cast nonneg_of_mul_nonneg_left hle (by positivity)
  refine ⟨(n₂ - n₁).toNat, ?_⟩
  rw [hdiff]
  congr 1
  exact_mod_cast (Int.toNat_of_nonneg hn).symm

/-- **A share of a width that is computed is within the width that is meant.** -/
theorem exists_share {a : Float} {s : Sign} {width : ℚ} {n : ℕ}
    (hn : width = n * 2 ^ (-1074 : ℤ)) (hwidth : IsNearest a s width) (ha : a.isFinite = true)
    (hsign : signed s width = width) (w : UInt64) :
    ∃ s' share, 0 ≤ share ∧ share ≤ width ∧ signed s' share = share ∧
      IsNumber (a * Draw.unitOfWord w) s' share := by
  have hnonneg : 0 ≤ width := by
    rw [hn]
    positivity
  have hfinite := hwidth.isFinite_iff.mp ha
  obtain ⟨k, hk, hunit⟩ := isNumber_unitOfWord w
  have hless := (rounded_share_le_rounded hnonneg hk).trans_lt hfinite
  have hproduct := ((hwidth.isNumber hfinite).mul hunit).isNumber hless
  refine ⟨_, _, rounded_nonneg _, rounded_share_le hn hk, ?_, hproduct⟩
  cases s with
  | positive => rfl
  | negative =>
    -- a width without a positive sign is nothing, and so is a share of it
    have hzero : width = 0 := by
      rw [signed] at hsign
      linarith
    rw [hzero]
    simp

/-- **The exact sum of the lower end and the share lies between the ends of the range**, and the
constant is nearest to it. -/
theorem Problem.Runnable.constantOf_between {p : Problem} (h : p.Runnable) (w : UInt64)
    {s₁ s₂ : Sign} {y₁ y₂ : ℚ} (hmin : IsNumber p.minRandom s₁ y₁)
    (hmax : IsNumber p.maxRandom s₂ y₂) :
    ∃ s x, signed s₁ y₁ ≤ x ∧ x ≤ signed s₂ y₂ ∧ signed s |x| = x ∧
      IsNearest (p.constantOf w) s |x| := by
  have hle : signed s₁ y₁ ≤ signed s₂ y₂ :=
    not_lt.mp fun hlt => h.not_reversed ((hmax.lt_iff hmin).mpr hlt)
  obtain ⟨n, hn⟩ := hmin.exists_distance_grid hmax hle
  obtain ⟨s, hsign, hwidth⟩ := hmax.sub hmin
  rw [abs_of_nonneg (sub_nonneg.mpr hle)] at hsign hwidth
  obtain ⟨s', share, hnonneg, hshare, hsigned, hproduct⟩ :=
    exists_share hn hwidth h.isFinite_width hsign w
  obtain ⟨s'', hsign', hsum⟩ := hmin.add hproduct
  rw [hsigned] at hsign' hsum
  exact ⟨s'', signed s₁ y₁ + share, by linarith, by linarith, hsign', hsum⟩

/-- **Constants are finite.** -/
theorem Problem.Runnable.isFinite_constantOf {p : Problem} (h : p.Runnable) (w : UInt64) :
    (p.constantOf w).isFinite = true := by
  obtain ⟨s₁, y₁, hmin, hlt₁⟩ := exists_isNumber h.isFinite_minRandom
  obtain ⟨s₂, y₂, hmax, hlt₂⟩ := exists_isNumber h.isFinite_maxRandom
  obtain ⟨s, x, hlo, hhi, -, hnearest⟩ := h.constantOf_between w hmin hmax
  have hends : |x| ≤ max y₁ y₂ := by
    calc |x| ≤ max |signed s₁ y₁| |signed s₂ y₂| := abs_le_max_abs_abs hlo hhi
      _ = max y₁ y₂ := by rw [abs_signed s₁ hmin.nonneg, abs_signed s₂ hmax.nonneg]
  refine hnearest.isFinite_iff.mpr ?_
  calc rounded |x| ≤ rounded (max y₁ y₂) := rounded_mono (abs_nonneg x) hends
    _ < 2 ^ 1024 := by
      rcases max_choice y₁ y₂ with heq | heq
      · rw [heq, hmin.rounded_eq]
        exact hlt₁
      · rw [heq, hmax.rounded_eq]
        exact hlt₂

end SymbolicRegression
