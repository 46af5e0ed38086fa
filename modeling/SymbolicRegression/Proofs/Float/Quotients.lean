import SymbolicRegression.Proofs.Float.Operations

set_option autoImplicit false
set_option relaxedAutoImplicit false

/-!
# Quotients and decimal numbers

The quotient of two finite numbers is the exact result rounded to the grid of its magnitude, like
their sum and their product. So is a whole number times a power of ten.

## Main results

* `SymbolicRegression.IsNumber.div` — quotients.
* `SymbolicRegression.isNumber_toFloat` — whole numbers.
* `SymbolicRegression.isNearest_ofScientific` — whole numbers times a power of ten.
-/

namespace SymbolicRegression

open Float.Model Float.Model.UnpackedFloat

variable {a b : Float} {s₁ s₂ : Sign} {y₁ y₂ : ℚ}

/-! ## Quotients -/

/-- The exponent that a quotient is computed with is not coarser than its grid. -/
lemma le_gridExponent_quotient {m m' : ℕ} {e e' : ℤ} (hm : 0 < m) (hm' : 0 < m') :
    Format.binary64.targetExponent (totalExponent m e - totalExponent m' e') ≤
      gridExponent (m * 2 ^ e / (m' * 2 ^ e')) := by
  have hpos : (0 : ℚ) < m * 2 ^ e / (m' * 2 ^ e') := by positivity
  have hleading : (2 ^ m.log2 : ℚ) ≤ m := by exact_mod_cast Nat.log2_self_le hm.ne'
  have hbits : (m' : ℚ) ≤ 2 ^ (m'.log2 + 1) := by exact_mod_cast Nat.lt_log2_self.le
  have hpow : (2 : ℚ) ^ ((m.log2 : ℤ) + e - ((m'.log2 + 1 : ℕ) + e')) ≤
      m * 2 ^ e / (m' * 2 ^ e') := by
    rw [zpow_sub₀ (by norm_num), zpow_add₀ (by norm_num), zpow_add₀ (by norm_num), zpow_natCast,
      zpow_natCast]
    gcongr
  have hlog : (m.log2 : ℤ) + e - ((m'.log2 + 1 : ℕ) + e') ≤
      Int.log 2 (m * 2 ^ e / (m' * 2 ^ e') : ℚ) :=
    (Int.zpow_le_iff_le_log (by norm_num) hpos).mp (by exact_mod_cast hpow)
  show max ((m.log2 : ℤ) + 1 + e - (m'.log2 + 1 + e') - 53) (-1074) ≤ _
  unfold gridExponent
  push_cast at hlog
  omega

/-- **A quotient of whole mantissas is rounded**, whatever their exponents are.

**Proof sketch.** The numerator is shifted until the whole quotient has the bits of its grid; the
remainder tells how the rest compares to one half. -/
theorem denotes_div_finite (s s' : Sign) {m m' : ℕ} {e e' : ℤ} (hm : 0 < m) (hm' : 0 < m') :
    Denotes (s / s') (rounded (m * 2 ^ e / (m' * 2 ^ e')))
      (UnpackedFloat.div .binary64 (.finite s m e hm) (.finite s' m' e' hm')) := by
  obtain ⟨g, hg⟩ : ∃ g, g = min (e - e')
    (Format.binary64.targetExponent (totalExponent m e - totalExponent m' e')) := ⟨_, rfl⟩
  have hpos : (0 : ℚ) < m * 2 ^ e / (m' * 2 ^ e') := by positivity
  have hgrid : g ≤ gridExponent (m * 2 ^ e / (m' * 2 ^ e')) :=
    hg ▸ (min_le_right _ _).trans (le_gridExponent_quotient hm hm')
  have hshift : ((e - e' - g).toNat : ℤ) = e - e' - g :=
    Int.toNat_of_nonneg (sub_nonneg.mpr (hg ▸ min_le_left _ _))
  have hunits : (m * 2 ^ e / (m' * 2 ^ e') / 2 ^ g : ℚ) =
      (m <<< (e - e' - g).toNat / m' : ℕ) + (m <<< (e - e' - g).toNat % m' : ℕ) / m' := by
    have hdivision : ((m <<< (e - e' - g).toNat : ℕ) : ℚ) = m' * (m <<< (e - e' - g).toNat / m' : ℕ)
        + (m <<< (e - e' - g).toNat % m' : ℕ) := by
      exact_mod_cast (Nat.div_add_mod _ m').symm
    have hquotient : (m * 2 ^ e / (m' * 2 ^ e') / 2 ^ g : ℚ) =
        (m <<< (e - e' - g).toNat : ℕ) / m' := by
      rw [Nat.shiftLeft_eq, Nat.cast_mul, Nat.cast_pow, Nat.cast_ofNat, ← zpow_natCast, hshift,
        zpow_sub₀ (by norm_num), zpow_sub₀ (by norm_num)]
      field_simp
    rw [hquotient, hdivision]
    field_simp
  have hround := denotes_roundWithAccuracy (s / s') hpos
    (hunits ▸ holds_fraction _ (Nat.mod_lt _ hm')) hgrid
  rw [UnpackedFloat.div]
  simp only [divCore, ← hg]
  exact hround

/-- **The quotient of two numbers is rounded.** -/
theorem IsNumber.div (ha : IsNumber a s₁ y₁) (hb : IsNumber b s₂ y₂) (hy : y₂ ≠ 0) :
    IsNearest (a / b) (s₁ / s₂) (y₁ / y₂) := by
  apply @isNearest_pack _ _ (UnpackedFloat.div .binary64 (unpacked a) (unpacked b))
  unfold IsNumber at ha hb
  generalize unpacked a = u at ha
  generalize unpacked b = v at hb
  cases v with
  | zero => exact absurd hb.2 hy
  | finite s' m' e' hm' =>
    obtain ⟨rfl, rfl, -⟩ := hb
    cases u with
    | zero =>
      obtain ⟨rfl, rfl⟩ := ha
      exact ⟨rfl, by simp⟩
    | finite s m e hm =>
      obtain ⟨rfl, rfl, -⟩ := ha
      exact denotes_div_finite s s' hm hm'
    | infinity => exact ha.elim
    | notANumber => exact ha.elim
  | infinity => exact hb.elim
  | notANumber => exact hb.elim

/-! ## Whole numbers and powers of ten -/

/-- A whole number is rounded. -/
lemma denotes_ofNat (n : ℕ) : Denotes .positive (rounded n) (UnpackedFloat.ofNat .binary64 n) := by
  have h := denotes_normalize n 0
  rw [signOf, if_neg (by omega), zpow_zero, mul_one, Int.cast_natCast, Nat.abs_cast] at h
  exact h

/-- A whole number with at most fifty-three bits before its zeros is itself. -/
lemma isNumber_ofNat {n k j : ℕ} (h : n = k * 2 ^ j) (hk : k ≤ 2 ^ 53) (hj : j ≤ 970) :
    IsNumber (.ofModel (.ofNat n)) .positive n := by
  have hself : rounded (n : ℚ) = n := by
    have hgrid := @rounded_grid k j (by omega) hk
    rw [zpow_natCast] at hgrid
    rw [h]
    exact_mod_cast hgrid
  have hlt : (n : ℚ) < 2 ^ 1024 := by
    calc (n : ℚ) = k * 2 ^ j := by exact_mod_cast h
      _ ≤ 2 ^ 53 * 2 ^ 970 := by
        gcongr
        · exact_mod_cast hk
        · norm_num
      _ < 2 ^ 1024 := by
        rw [← pow_add]
        exact pow_lt_pow_right₀ (by norm_num) (by norm_num)
  have hnumber := (isNearest_pack (denotes_ofNat n)).isNumber (by rwa [hself])
  rwa [hself] at hnumber

/-- A whole number of at most fifty-three bits is itself. -/
theorem isNumber_toFloat {n : UInt64} (hn : n.toNat ≤ 2 ^ 53) :
    IsNumber n.toFloat .positive n.toNat :=
  isNumber_ofNat (j := 0) (mul_one _).symm hn (by norm_num)

/-- The table of powers of ten holds what it should. -/
lemma exactlyRepresentablePowersOfTen_eq :
    Float.exactlyRepresentablePowersOfTen =
      Array.ofFn fun e : Fin 23 => Float.ofModel (.ofNat (10 ^ e.val)) := by
  decide +kernel

/-- The powers of ten of the table are exact. -/
lemma isNumber_powerOfTen {e : ℕ} (he : e < Float.exactlyRepresentablePowersOfTen.size) :
    IsNumber Float.exactlyRepresentablePowersOfTen[e] .positive (10 ^ e) := by
  have hsize : e < 23 := by simpa [exactlyRepresentablePowersOfTen_eq] using he
  have hfive : 5 ^ e ≤ 2 ^ 53 :=
    le_trans (Nat.pow_le_pow_right (by norm_num) (show e ≤ 22 by omega)) (by norm_num)
  have h := isNumber_ofNat (n := 10 ^ e) (mul_pow 5 2 e) hfive (by omega)
  rw [Nat.cast_pow, Nat.cast_ofNat] at h
  simpa [exactlyRepresentablePowersOfTen_eq] using h

/-- A whole number times a power of ten is a product with enough bits. -/
lemma denotes_mul_ten_pow {m n k : ℕ} (hn : 0 < n) (hk : 0 < 10 ^ k) (h : n = m * 2 ^ 53) :
    Denotes .positive (rounded (m * 10 ^ k)) (UnpackedFloat.mul .binary64
      (.finite .positive n (-53) hn) (.finite .positive (10 ^ k) 0 hk)) := by
  have hscale : (n * 2 ^ (-53 : ℤ) : ℚ) = m := by
    rw [zpow_neg, mul_inv_eq_iff_eq_mul₀ (by positivity), h, Nat.cast_mul, Nat.cast_pow]
    rfl
  have hexact : (n * 2 ^ (-53 : ℤ) * ((10 ^ k : ℕ) * 2 ^ (0 : ℤ)) : ℚ) = m * 10 ^ k := by
    rw [hscale, zpow_zero, mul_one, Nat.cast_pow, Nat.cast_ofNat]
  have hone : (2 ^ 52 * 2 ^ (-53 + 0 : ℤ) : ℚ) ≤
      n * 2 ^ (-53 : ℤ) * ((10 ^ k : ℕ) * 2 ^ (0 : ℤ)) := by
    have hm : 0 < m := Nat.pos_of_ne_zero fun hzero => by simp [h, hzero] at hn
    have hle : (1 : ℚ) ≤ m * 10 ^ k := by exact_mod_cast Nat.mul_pos hm hk
    rw [hexact]
    refine le_trans ?_ hle
    norm_num
  have hdenotes := denotes_mul_finite .positive .positive hn hk (le_gridExponent_of_le hone)
  rw [hexact] at hdenotes
  exact hdenotes

/-- A whole number divided by a power of ten is a quotient. -/
lemma denotes_div_ten_pow {m k : ℕ} (hm : 0 < m) (hk : 0 < 10 ^ k) :
    Denotes .positive (rounded (m / 10 ^ k)) (UnpackedFloat.div .binary64
      (.finite .positive m 0 hm) (.finite .positive (10 ^ k) 0 hk)) := by
  have h := @denotes_div_finite .positive .positive m (10 ^ k) 0 0 hm hk
  rw [zpow_zero, mul_one, mul_one, Nat.cast_pow, Nat.cast_ofNat] at h
  exact h

/-- A magnitude that is too great for any number. -/
lemma isNearest_infinity {x : ℚ} (s : Sign) (h : 2 ^ 1024 ≤ x) :
    IsNearest (.ofModel (.pack (.infinity s))) s x := by
  have hgreat : (2 ^ (1024 : ℤ) : ℚ) ≤ x := by exact_mod_cast h
  have hrounded := rounded_mono (by positivity) hgreat
  rw [rounded_two_zpow (by norm_num)] at hrounded
  rw [IsNearest, if_neg (not_lt.mpr (by exact_mod_cast hrounded))]
  exact unpack_pack trivial

/-- A magnitude that is too small for any grid. -/
lemma isNearest_zero {x : ℚ} (s : Sign) (hx : 0 ≤ x) (h : x ≤ 2 ^ (-1075 : ℤ)) :
    IsNearest (.ofModel (.pack (.zero s))) s x := by
  apply isNearest_pack
  rw [rounded_eq_zero hx h]
  exact ⟨rfl, rfl⟩

/-- Powers of two below powers of ten: twenty-eight powers of ten are more than ninety-three powers
of two. -/
lemma two_pow_le_ten_pow {j k : ℕ} (h : 28 * j ≤ 93 * k) : (2 ^ j : ℚ) ≤ 10 ^ k := by
  refine le_of_pow_le_pow_left₀ (show 28 ≠ 0 by norm_num) (by positivity) ?_
  calc ((2 ^ j) ^ 28 : ℚ) = 2 ^ (28 * j) := by rw [← pow_mul, mul_comm]
    _ ≤ 2 ^ (93 * k) := pow_le_pow_right₀ (by norm_num) h
    _ = (2 ^ 93) ^ k := pow_mul 2 93 k
    _ ≤ (10 ^ 28) ^ k := by
      gcongr
      norm_num
    _ = (10 ^ k) ^ 28 := by rw [← pow_mul, ← pow_mul, mul_comm]

/-- A whole number times a great power of ten is too great for any number. -/
lemma two_pow_le_of_great {m : ℕ} {e : ℤ} (hm : 0 < m) (he : 2048 < e) :
    (2 ^ 1024 : ℚ) ≤ m * 10 ^ e := by
  obtain ⟨k, rfl⟩ := Int.eq_ofNat_of_zero_le (show 0 ≤ e by omega)
  rw [zpow_natCast]
  calc (2 ^ 1024 : ℚ) ≤ 10 ^ k := two_pow_le_ten_pow (by omega)
    _ ≤ m * 10 ^ k := le_mul_of_one_le_left (by positivity) (by exact_mod_cast hm)

/-- A whole number times a small power of ten is too small for any grid. -/
lemma le_two_zpow_of_small {m : ℕ} {e : ℤ} (he : e < -(2048 + m.log2)) :
    (m * 10 ^ e : ℚ) ≤ 2 ^ (-1075 : ℤ) := by
  obtain ⟨k, hk⟩ := Int.eq_ofNat_of_zero_le (show 0 ≤ -e by omega)
  obtain rfl : e = -k := by omega
  have hbits : (m : ℚ) ≤ 2 ^ (m.log2 + 1) := by exact_mod_cast Nat.lt_log2_self.le
  calc (m * 10 ^ (-(k : ℤ)) : ℚ) ≤ 2 ^ (m.log2 + 1) * 2 ^ (-(k : ℤ)) := by
        rw [zpow_neg, zpow_neg, zpow_natCast, zpow_natCast]
        gcongr
        norm_num
    _ = 2 ^ (((m.log2 + 1 : ℕ) : ℤ) - k) := by
      rw [sub_eq_add_neg, zpow_add₀ (by norm_num), zpow_natCast]
    _ ≤ 2 ^ (-1075 : ℤ) := zpow_le_zpow_right₀ (by norm_num) (by push_cast; omega)

/-- **A whole number times a power of ten is rounded**, when it is computed from mantissas. -/
lemma isNearest_ofModel_ofScientific (m : ℕ) (e : ℤ) :
    IsNearest (.ofModel (.ofScientific m e)) .positive (m * 10 ^ e) := by
  unfold Float.Model.ofScientific UnpackedFloat.ofScientific
  split
  · rename_i hzero
    apply isNearest_pack
    rw [hzero]
    exact ⟨rfl, by simp⟩
  rename_i hm
  have hpos : 0 < m := Nat.pos_of_ne_zero hm
  split
  · rename_i hgreat
    have he : (2 ^ 11 : ℤ) < e := hgreat
    exact isNearest_infinity _ (two_pow_le_of_great hpos (by omega))
  split
  · rename_i hsmall
    have he : e < -((2 ^ 11 : ℤ) + m.log2) := hsmall
    exact isNearest_zero _ (by positivity) (le_two_zpow_of_small (by omega))
  split
  · rename_i hnonneg
    obtain ⟨k, rfl⟩ := Int.eq_ofNat_of_zero_le hnonneg
    rw [zpow_natCast]
    exact isNearest_pack (denotes_mul_ten_pow _ _ (Nat.shiftLeft_eq m 53))
  · rename_i hneg
    obtain ⟨k, hk⟩ := Int.eq_ofNat_of_zero_le (show 0 ≤ -e by omega)
    obtain rfl : e = -k := by omega
    rw [zpow_neg, zpow_natCast, ← div_eq_mul_inv]
    simp only [neg_neg]
    exact isNearest_pack (denotes_div_ten_pow hpos _)

/-- **A whole number times a power of ten is rounded.** -/
theorem isNearest_ofScientific (m : ℕ) (s : Bool) (e : ℕ) :
    IsNearest (Float.ofScientific m s e) .positive (m * 10 ^ (if s then -e else e : ℤ)) := by
  unfold Float.ofScientific
  split
  · rename_i hsmall
    obtain ⟨hm, he⟩ := hsmall
    have hnat : m.toUInt64.toNat = m := by
      rw [Nat.toUInt64, UInt64.toNat_ofNat']
      exact Nat.mod_eq_of_lt (by omega)
    have hnumber : IsNumber m.toUInt64.toFloat .positive m := by
      have h := @isNumber_toFloat m.toUInt64 (by omega)
      rwa [hnat] at h
    have hpower := @isNumber_powerOfTen e (by simp [exactlyRepresentablePowersOfTen_eq]; omega)
    cases s with
    | true =>
      rw [if_pos rfl, if_pos rfl, zpow_neg, zpow_natCast, ← div_eq_mul_inv]
      exact hnumber.div hpower (by positivity)
    | false =>
      rw [if_neg Bool.false_ne_true, if_neg Bool.false_ne_true, zpow_natCast]
      exact hnumber.mul hpower
  · cases s with
    | true =>
      simp only [if_pos, Int.negOfNat_eq]
      exact isNearest_ofModel_ofScientific m _
    | false => exact isNearest_ofModel_ofScientific m e

/-- A decimal fraction that needs no rounding. -/
theorem isNumber_ofScientific {m e : ℕ} {x : ℚ} (hvalue : (m * 10 ^ (-e : ℤ) : ℚ) = x)
    (hself : rounded x = x) (hx : x < 2 ^ 1024) :
    IsNumber (Float.ofScientific m true e) .positive x := by
  have h := isNearest_ofScientific m true e
  rw [if_pos rfl, hvalue] at h
  have hnumber := h.isNumber (by rwa [hself])
  rwa [hself] at hnumber

end SymbolicRegression
