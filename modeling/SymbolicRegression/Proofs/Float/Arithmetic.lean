import SymbolicRegression.Proofs.Float.Packing
import SymbolicRegression.Proofs.Float.Rounding

set_option autoImplicit false
set_option relaxedAutoImplicit false

/-!
# Arithmetic is rounded exactly

A mantissa together with a round bit and a sticky bit holds enough of a magnitude to find the
nearest whole number, also after it has been shifted. So the result of an operation is the exact
result, rounded to the grid of its magnitude, unless that is too great for any finite number.

## Main definitions

* `SymbolicRegression.Holds` — the magnitude that an extended mantissa stands for.
* `SymbolicRegression.Denotes` — the canonical form of a magnitude with a sign.

## Main results

* `SymbolicRegression.denotes_roundWithAccuracy` — rounding finds the nearest point of the grid.
* `SymbolicRegression.Denotes.unpack_pack`, `SymbolicRegression.Denotes.unpack_pack_of_le` — a
  canonical form survives packing if its magnitude is not too great.
-/

namespace SymbolicRegression

open Float.Model Float.Model.UnpackedFloat

variable {x y : ℚ}

/-! ## Extended mantissas -/

/-- The extended mantissa stands for the magnitude: it has the whole part, and the bits say how the
rest compares to nothing and to one half. -/
def Holds (em : ExtendedMantissa) (y : ℚ) : Prop :=
  ∃ f : ℚ, y = em.mantissa + f ∧ 0 ≤ f ∧ f < 1 ∧ (em.roundBit = true ↔ 1 / 2 ≤ f) ∧
    (em.stickyBit = true ↔ f ≠ 0 ∧ f ≠ 1 / 2)

/-- A whole mantissa stands for itself. -/
lemma holds_exact (m : ℕ) : Holds (.ofMantissaAndAccuracy m .exact) m :=
  ⟨0, by simp [ExtendedMantissa.ofMantissaAndAccuracy], le_rfl, one_pos, by
    simp [ExtendedMantissa.ofMantissaAndAccuracy], by
    simp [ExtendedMantissa.ofMantissaAndAccuracy]⟩

/-- The remainder of a division is told apart from nothing and from one half. -/
lemma holds_fraction (m : ℕ) {num den : ℕ} (h : num < den) :
    Holds (.ofMantissaAndAccuracy m (accuracyOfFraction num den)) (m + num / den) := by
  have hden : (0 : ℚ) < den := by exact_mod_cast Nat.zero_lt_of_lt h
  have hhalf : 1 / 2 ≤ (num / den : ℚ) ↔ den ≤ 2 * num := by
    rw [le_div_iff₀ hden, ← Nat.cast_le (α := ℚ)]
    push_cast
    constructor <;> intro _ <;> linarith
  have htie : (num / den : ℚ) = 1 / 2 ↔ 2 * num = den := by
    rw [div_eq_iff hden.ne', ← Nat.cast_inj (R := ℚ)]
    push_cast
    constructor <;> intro _ <;> linarith
  have hzero : (num / den : ℚ) = 0 ↔ num = 0 := by
    rw [div_eq_zero_iff, Nat.cast_eq_zero, or_iff_left hden.ne']
  have hlt : (num / den : ℚ) < 1 := by
    rw [div_lt_one hden]
    exact_mod_cast h
  unfold accuracyOfFraction
  by_cases hnum : num = 0
  · rw [if_pos hnum, hzero.mpr hnum, add_zero]
    exact holds_exact m
  rw [if_neg hnum]
  rcases hcompare : compare (2 * num) den with _ | _ | _
  · have hless := Nat.compare_eq_lt.mp hcompare
    refine ⟨num / den, rfl, by positivity, hlt, ?_, ?_⟩
    · rw [hhalf]
      simp only [ExtendedMantissa.ofMantissaAndAccuracy, Bool.false_eq_true, false_iff]
      omega
    · rw [ne_eq, ne_eq, hzero, htie]
      simp only [ExtendedMantissa.ofMantissaAndAccuracy, true_iff]
      omega
  · have hequal := Nat.compare_eq_eq.mp hcompare
    refine ⟨num / den, rfl, by positivity, hlt, ?_, ?_⟩
    · rw [hhalf]
      simp only [ExtendedMantissa.ofMantissaAndAccuracy, true_iff]
      omega
    · rw [ne_eq, ne_eq, hzero, htie]
      simp only [ExtendedMantissa.ofMantissaAndAccuracy, Bool.false_eq_true, false_iff]
      omega
  · have hmore := Nat.compare_eq_gt.mp hcompare
    refine ⟨num / den, rfl, by positivity, hlt, ?_, ?_⟩
    · rw [hhalf]
      simp only [ExtendedMantissa.ofMantissaAndAccuracy, true_iff]
      omega
    · rw [ne_eq, ne_eq, hzero, htie]
      simp only [ExtendedMantissa.ofMantissaAndAccuracy, true_iff]
      omega

/-- Dropping the last bit halves the magnitude. -/
lemma Holds.shiftRightOne {em : ExtendedMantissa} (h : Holds em y) :
    Holds em.shiftRightOne (y / 2) := by
  obtain ⟨f, hy, hf, hf', hround, hsticky⟩ := h
  have hmod : (em.mantissa : ℚ) = 2 * (em.mantissa / 2 : ℕ) + (em.mantissa % 2 : ℕ) := by
    exact_mod_cast (Nat.div_add_mod em.mantissa 2).symm
  have hsticky' : (em.roundBit || em.stickyBit) = true ↔ f ≠ 0 := by
    rw [Bool.or_eq_true, hround, hsticky]
    constructor
    · rintro (hhalf | ⟨hne, -⟩)
      · linarith
      · exact hne
    · intro hne
      rcases lt_or_ge f (1 / 2) with hlt | hge
      · exact .inr ⟨hne, hlt.ne⟩
      · exact .inl hge
  refine ⟨((em.mantissa % 2 : ℕ) + f) / 2, ?_, by positivity, ?_, ?_, ?_⟩
  · rw [hy, ExtendedMantissa.shiftRightOne, hmod]
    ring
  · have hbit : ((em.mantissa % 2 : ℕ) : ℚ) ≤ 1 := by
      exact_mod_cast Nat.lt_succ_iff.mp (Nat.mod_lt _ two_pos)
    linarith
  · rcases Nat.mod_two_eq_zero_or_one em.mantissa with hbit | hbit
    · simp only [ExtendedMantissa.shiftRightOne, hbit]
      norm_num
      linarith
    · simp only [ExtendedMantissa.shiftRightOne, hbit]
      norm_num
      linarith
  · rw [ExtendedMantissa.shiftRightOne, hsticky']
    rcases Nat.mod_two_eq_zero_or_one em.mantissa with hbit | hbit
    · rw [hbit]
      constructor
      · intro hne
        refine ⟨by simpa using hne, ?_⟩
        push_cast
        intro heq
        linarith
      · rintro ⟨hne, -⟩
        simpa using hne
    · rw [hbit]
      push_cast
      constructor
      · intro hne
        refine ⟨by positivity, fun heq => hne (by linarith)⟩
      · rintro ⟨-, hne⟩ rfl
        norm_num at hne

/-- Dropping bits divides the magnitude by a power of two. -/
lemma Holds.shiftRight {em : ExtendedMantissa} (h : Holds em y) (k : ℕ) :
    Holds (em >>> k) (y / 2 ^ k) := by
  induction k with
  | zero =>
    rw [pow_zero, div_one]
    exact h
  | succ k ih =>
    have hnext := ih.shiftRightOne
    rw [div_div, ← pow_succ] at hnext
    exact hnext

/-- The whole part of the magnitude is the mantissa. -/
lemma Holds.mantissa_le {em : ExtendedMantissa} (h : Holds em y) :
    em.mantissa ≤ y ∧ y < em.mantissa + 1 := by
  obtain ⟨f, hy, hf, hf', -⟩ := h
  exact ⟨by linarith, by linarith⟩

/-- **The rounded mantissa is the whole number nearest to the magnitude.** -/
theorem Holds.roundedMantissa {em : ExtendedMantissa} (h : Holds em y) :
    em.roundedMantissa = roundEven y := by
  obtain ⟨f, hy, hf, hf', hround, hsticky⟩ := h
  obtain ⟨m, roundBit, stickyBit⟩ := em
  have hy' : 0 ≤ y := by
    rw [hy]
    positivity
  symm
  cases roundBit <;> cases stickyBit <;>
    simp only [ExtendedMantissa.roundedMantissa, ExtendedMantissa.accuracy,
      Accuracy.roundToNearestEven, Bool.false_eq_true, false_iff, true_iff] at hy hround hsticky ⊢
  · have hzero : f = 0 := by
      by_contra hne
      exact hsticky ⟨hne, fun htie => hround htie.ge⟩
    rw [hy, hzero, add_zero, roundEven_natCast]
  · have hdist : |y - m| = f := by rw [hy, add_sub_cancel_left, abs_of_nonneg hf]
    refine roundEven_unique hy' (by linarith) ?_
    intro htie
    linarith
  · have htie : f = 1 / 2 := by
      by_contra hne
      exact hsticky ⟨by linarith, hne⟩
    rcases Nat.mod_two_eq_zero_or_one m with hbit | hbit
    · have hdist : |y - (m + m % 2 : ℕ)| = 1 / 2 := by
        rw [hy, hbit, htie, add_zero, add_sub_cancel_left]
        norm_num
      refine roundEven_unique hy' hdist.le ?_
      intro _
      rw [hbit]
      exact Nat.even_iff.mpr hbit
    · have hdist : |y - (m + m % 2 : ℕ)| = 1 / 2 := by
        rw [hy, hbit, htie]
        push_cast
        rw [add_sub_add_left_eq_sub]
        norm_num
      refine roundEven_unique hy' hdist.le ?_
      intro _
      rw [hbit]
      exact Nat.even_add_one.mpr (Nat.not_even_iff.mpr hbit)
  · have hdist : |y - (m + 1 : ℕ)| = 1 - f := by
      rw [hy]
      push_cast
      rw [add_sub_add_left_eq_sub, abs_of_nonpos (by linarith), neg_sub]
    have hne : 1 / 2 < f := lt_of_le_of_ne hround fun htie => hsticky.2 htie.symm
    refine roundEven_unique hy' (by linarith) ?_
    intro htie
    linarith

/-! ## Canonical forms -/

/-- The unpacked number is the canonical form of a magnitude with a sign; its exponent may be too
great for a number. -/
def Denotes (s : Sign) (y : ℚ) : UnpackedFloat → Prop
  | .zero s' => s' = s ∧ y = 0
  | .finite s' m e _ => s' = s ∧ y = m * 2 ^ e ∧ m < 2 ^ 53 ∧ -1074 ≤ e ∧ (2 ^ 52 ≤ m ∨ e = -1074)
  | _ => False

variable {s : Sign}

/-- The target exponent of a mantissa is the grid of what it stands for, if it has a bit. -/
lemma targetExponent_eq {m : ℕ} {e : ℤ} (hm : 0 < m) (hlo : m * 2 ^ e ≤ x)
    (hhi : x < (m + 1) * 2 ^ e) :
    Format.binary64.targetExponent (totalExponent m e) = gridExponent x := by
  have hleading : (2 ^ m.log2 : ℚ) ≤ m := by exact_mod_cast Nat.log2_self_le hm.ne'
  have hbits : (m + 1 : ℚ) ≤ 2 ^ (m.log2 + 1) := by exact_mod_cast Nat.lt_log2_self
  have hlo' : (2 : ℚ) ^ (m.log2 + e) ≤ x := by
    rw [zpow_add₀ (by norm_num), zpow_natCast]
    refine le_trans ?_ hlo
    gcongr
  have hhi' : x < (2 : ℚ) ^ (m.log2 + e + 1) := by
    rw [show (m.log2 + e + 1 : ℤ) = (m.log2 + 1 : ℕ) + e by push_cast; ring,
      zpow_add₀ (by norm_num), zpow_natCast]
    refine lt_of_lt_of_le hhi ?_
    gcongr
  rw [gridExponent_of_mem hlo' hhi']
  show max (m.log2 + 1 + e - 53) (-1074) = _
  omega

/-- The target exponent of what is held is its grid, if no bit of the grid has been lost. -/
lemma targetExponent_of_le {m : ℕ} {e : ℤ} (hx : 0 < x) (hlo : m * 2 ^ e ≤ x)
    (hhi : x < (m + 1) * 2 ^ e) (he : e ≤ gridExponent x) :
    Format.binary64.targetExponent (totalExponent m e) = gridExponent x := by
  rcases Nat.eq_zero_or_pos m with rfl | hm
  · have hlog : Int.log 2 x < e :=
      (Int.lt_zpow_iff_log_lt (by norm_num) hx).mp (by simpa using hhi)
    show max (((0 : ℕ).log2 : ℤ) + 1 + e - 53) (-1074) = _
    unfold gridExponent at he ⊢
    simp only [Nat.log2_zero]
    omega
  · exact targetExponent_eq hm hlo hhi

/-- Shifting to a grid that is not finer holds the magnitude in units of that grid. -/
lemma shiftToExponent_eq {m : ℕ} {e g : ℤ} {acc : Accuracy}
    (h : Holds (.ofMantissaAndAccuracy m acc) (x / 2 ^ e)) (hg : e ≤ g) :
    ∃ em, shiftToExponent m e acc g = (em, g) ∧ Holds em (x / 2 ^ g) := by
  have hshift : ((g - e).toNat : ℤ) = g - e := Int.toNat_of_nonneg (by omega)
  refine ⟨_, Prod.ext rfl (show e + ((g - e).toNat : ℤ) = g by omega), ?_⟩
  have hunits : x / 2 ^ g = x / 2 ^ e / 2 ^ (g - e).toNat := by
    rw [div_div, ← zpow_natCast, hshift, ← zpow_add₀ (by norm_num), add_sub_cancel]
  rw [hunits]
  exact h.shiftRight _

/-- A mantissa that has been rounded may have become a power of two too great for its bits; it is
shifted once more then. -/
lemma shiftToTargetExponent_rounded {r : ℕ} {g : ℤ} (hr : r ≤ 2 ^ 53) (hg : -1074 ≤ g) :
    shiftToTargetExponent .binary64 r g .exact =
      if r = 2 ^ 53 then (⟨2 ^ 52, false, false⟩, g + 1) else (⟨r, false, false⟩, g) := by
  split
  · rename_i hfull
    subst hfull
    have htarget : Format.binary64.targetExponent (totalExponent (2 ^ 53) g) = g + 1 := by
      rw [totalExponent, Nat.log2_two_pow]
      show max ((53 : ℕ) + 1 + g - 53) (-1074) = _
      omega
    rw [shiftToTargetExponent, htarget, shiftToExponent, show (g + 1 - g).toNat = 1 by omega]
    rfl
  · have hlog : r.log2 ≤ 52 := by
      rcases Nat.eq_zero_or_pos r with rfl | hpos
      · simp
      · have := (Nat.log2_lt (k := 53) hpos.ne').mpr (by omega)
        omega
    have htarget : Format.binary64.targetExponent (totalExponent r g) ≤ g := by
      show max ((r.log2 : ℤ) + 1 + g - 53) (-1074) ≤ _
      omega
    rw [shiftToTargetExponent, shiftToExponent,
      show (Format.binary64.targetExponent (totalExponent r g) - g).toNat = 0 by omega]
    simp [ExtendedMantissa.ofMantissaAndAccuracy]
    rfl

/-- **Rounding finds the nearest point of the grid**, if no bit of the grid has been lost before.

**Proof sketch.** The first shift goes to the grid and holds the magnitude in its units, so the
rounded mantissa is the nearest whole number of units. The second shift changes the form only. -/
theorem denotes_roundWithAccuracy (s : Sign) {m : ℕ} {e : ℤ} {acc : Accuracy} (hx : 0 < x)
    (h : Holds (.ofMantissaAndAccuracy m acc) (x / 2 ^ e)) (he : e ≤ gridExponent x) :
    Denotes s (rounded x) (roundWithAccuracy .binary64 s m e acc) := by
  have hmantissa : ((ExtendedMantissa.ofMantissaAndAccuracy m acc).mantissa : ℚ) = m := by
    cases acc with
    | exact => rfl
    | inexact o => cases o <;> rfl
  obtain ⟨hlo, hhi⟩ := h.mantissa_le
  rw [hmantissa, le_div_iff₀ (by positivity)] at hlo
  rw [hmantissa, div_lt_iff₀ (by positivity)] at hhi
  have htarget := targetExponent_of_le hx hlo hhi he
  obtain ⟨em, hshift, hholds⟩ := shiftToExponent_eq h he
  have hfirst : shiftToTargetExponent .binary64 m e acc = (em, gridExponent x) := by
    rw [shiftToTargetExponent, htarget, hshift]
  have hr : em.roundedMantissa = roundEven (inUnits x) := hholds.roundedMantissa
  have hsecond := shiftToTargetExponent_rounded (roundEven_inUnits_le hx.le) (le_gridExponent x)
  have hgrid := le_gridExponent x
  by_cases hfull : roundEven (inUnits x) = 2 ^ 53
  · rw [if_pos hfull] at hsecond
    simp only [roundWithAccuracy, hfirst, hr, hsecond]
    rw [dif_neg (by norm_num)]
    refine ⟨rfl, ?_, by norm_num, by omega, .inl le_rfl⟩
    rw [rounded, hfull, zpow_add_one₀ (by norm_num)]
    push_cast
    ring
  · rw [if_neg hfull] at hsecond
    simp only [roundWithAccuracy, hfirst, hr, hsecond]
    split
    · rename_i hzero
      exact ⟨rfl, by rw [rounded, hzero, Nat.cast_zero, zero_mul]⟩
    · have hbound := roundEven_inUnits_le hx.le
      refine ⟨rfl, rfl, by omega, hgrid, ?_⟩
      rcases hgrid.eq_or_lt with heq | hlt
      · exact .inr heq.symm
      · exact .inl (le_roundEven_inUnits hx hlt)

/-- **A mantissa that is exact is rounded to the nearest point of the grid**, whatever its
exponent is. -/
theorem denotes_round (s : Sign) {m : ℕ} {e : ℤ} (hm : 0 < m) :
    Denotes s (rounded (m * 2 ^ e)) (UnpackedFloat.round .binary64 s m e) := by
  have hx : (0 : ℚ) < m * 2 ^ e := by positivity
  have htarget : Format.binary64.targetExponent (totalExponent m e) = gridExponent (m * 2 ^ e) := by
    refine targetExponent_eq hm le_rfl ?_
    gcongr
    exact lt_add_one _
  have hshift : UnpackedFloat.round .binary64 s m e =
      roundWithAccuracy .binary64 s (m <<< (e - gridExponent (m * 2 ^ e)).toNat)
        (e - (e - gridExponent (m * 2 ^ e)).toNat) .exact := by
    rw [UnpackedFloat.round, htarget]
    rfl
  rw [hshift]
  refine denotes_roundWithAccuracy s hx ?_ (by omega)
  have hunits : (m * 2 ^ e / 2 ^ (e - ((e - gridExponent (m * 2 ^ e)).toNat : ℤ)) : ℚ) =
      (m <<< (e - gridExponent (m * 2 ^ e)).toNat : ℕ) := by
    rw [Nat.shiftLeft_eq, Nat.cast_mul, Nat.cast_pow, Nat.cast_ofNat, mul_div_assoc,
      ← zpow_sub₀ (by norm_num), sub_sub_cancel, zpow_natCast]
  rw [hunits]
  exact holds_exact _

/-- A power of two split into a mantissa and an exponent. -/
lemma two_pow_add (k l : ℕ) : (2 ^ (k + l) : ℚ) = 2 ^ k * 2 ^ (l : ℤ) := by
  rw [zpow_natCast, pow_add]

/-- The greatest mantissa with the greatest exponent is less than the next power of two. -/
lemma mul_zpow_lt {m : ℕ} {e : ℤ} (hm : m < 2 ^ 53) (he : e ≤ 971) :
    (m * 2 ^ e : ℚ) < 2 ^ 1024 := by
  calc (m * 2 ^ e : ℚ) < 2 ^ 53 * 2 ^ e := by
        gcongr
        exact_mod_cast hm
    _ ≤ 2 ^ 53 * 2 ^ (971 : ℤ) := by
        gcongr
        norm_num
    _ = 2 ^ 1024 := (two_pow_add 53 971).symm

/-- A canonical form of a smaller exponent has a smaller magnitude. -/
lemma mul_zpow_lt_of_exponent_lt {m m' : ℕ} {e e' : ℤ} (hm : m < 2 ^ 53) (he : -1074 ≤ e)
    (hfull : 2 ^ 52 ≤ m' ∨ e' = -1074) (hlt : e < e') : (m * 2 ^ e : ℚ) < m' * 2 ^ e' := by
  by_contra hle
  have hm' : 2 ^ 52 ≤ m' := hfull.resolve_right (by omega)
  have hgreat : (2 ^ 53 * 2 ^ e : ℚ) ≤ m' * 2 ^ e' := by
    calc (2 ^ 53 * 2 ^ e : ℚ) = 2 ^ 52 * 2 ^ (e + 1) := by
          rw [zpow_add_one₀ (by norm_num)]
          ring
      _ ≤ m' * 2 ^ e' := by
          gcongr
          · exact_mod_cast hm'
          · norm_num
          · omega
  have hsmall : (m * 2 ^ e : ℚ) < 2 ^ 53 * 2 ^ e := by
    gcongr
    exact_mod_cast hm
  linarith

namespace Denotes

variable {u v : UnpackedFloat}

/-- A magnitude is not negative. -/
lemma nonneg (h : Denotes s y u) : 0 ≤ y := by
  cases u with
  | zero => exact h.2.ge
  | finite =>
    rw [h.2.1]
    positivity
  | infinity => exact h.elim
  | notANumber => exact h.elim

/-- The magnitude of a canonical form is a point of its grid. -/
theorem rounded_eq (h : Denotes s y u) : rounded y = y := by
  cases u with
  | zero => rw [h.2, rounded_zero]
  | finite =>
    obtain ⟨-, rfl, hlt, he, -⟩ := h
    exact rounded_grid he hlt.le
  | infinity => exact h.elim
  | notANumber => exact h.elim

/-- **There is only one canonical form.** -/
theorem unique (hu : Denotes s y u) (hv : Denotes s y v) : u = v := by
  cases u with
  | zero =>
    obtain ⟨rfl, rfl⟩ := hu
    cases v with
    | zero => rw [hv.1]
    | finite s' m e hm =>
      have hpos : (0 : ℚ) < m * 2 ^ e := by positivity
      exact absurd hv.2.1 hpos.ne
    | infinity => exact hv.elim
    | notANumber => exact hv.elim
  | finite s₁ m e hm =>
    obtain ⟨rfl, hy, hlt, he, hfull⟩ := hu
    cases v with
    | zero =>
      have hpos : (0 : ℚ) < m * 2 ^ e := by positivity
      rw [← hy, hv.2] at hpos
      exact absurd hpos (lt_irrefl 0)
    | finite s₂ m' e' hm' =>
      obtain ⟨rfl, hy', hlt', he', hfull'⟩ := hv
      have heq := hy.symm.trans hy'
      have hee : e = e' := le_antisymm
        (not_lt.mp fun hlt => (mul_zpow_lt_of_exponent_lt hlt' he' hfull hlt).ne' heq)
        (not_lt.mp fun hgt => (mul_zpow_lt_of_exponent_lt hlt he hfull' hgt).ne heq)
      subst hee
      have hmm : m = m' := by
        have hcancel := mul_right_cancel₀ (by positivity) heq
        exact_mod_cast hcancel
      subst hmm
      rfl
    | infinity => exact hv.elim
    | notANumber => exact hv.elim
  | infinity => exact hu.elim
  | notANumber => exact hu.elim

/-- The exponent of a canonical form is in range unless its magnitude is too great. -/
lemma canonical (h : Denotes s y u) (hy : y < 2 ^ 1024) : Canonical u := by
  cases u with
  | zero => trivial
  | finite s' m e hm =>
    obtain ⟨-, rfl, hlt, he, hfull⟩ := h
    refine ⟨hlt, he, ?_, hfull⟩
    by_contra hgreat
    have hfull : 2 ^ 52 ≤ m := hfull.resolve_right (by omega)
    have hle : (2 ^ 1024 : ℚ) ≤ m * 2 ^ e := by
      calc (2 ^ 1024 : ℚ) = 2 ^ 52 * 2 ^ (972 : ℤ) := two_pow_add 52 972
        _ ≤ m * 2 ^ e := by
          gcongr
          · exact_mod_cast hfull
          · norm_num
          · omega
    exact absurd hy (not_lt.mpr hle)
  | infinity => exact h.elim
  | notANumber => exact h.elim

/-- **A canonical form survives packing** if its magnitude is not too great. -/
theorem unpack_pack (h : Denotes s y u) (hy : y < 2 ^ 1024) :
    Denotes s y (Float.Model.pack u).unpack := by
  rw [SymbolicRegression.unpack_pack (h.canonical hy)]
  exact h

/-- **A canonical form of too great a magnitude becomes infinite.** -/
theorem unpack_pack_of_le (h : Denotes s y u) (hy : 2 ^ 1024 ≤ y) :
    (Float.Model.pack u).unpack = .infinity s := by
  cases u with
  | zero =>
    rw [h.2] at hy
    exact absurd hy (not_le.mpr (by positivity))
  | finite s' m e hm =>
    obtain ⟨rfl, rfl, hlt, -⟩ := h
    refine unpack_pack_of_overflow s' hm ?_
    by_contra hsmall
    exact absurd hy (not_le.mpr (mul_zpow_lt hlt (by omega)))
  | infinity => exact h.elim
  | notANumber => exact h.elim

end Denotes

end SymbolicRegression
