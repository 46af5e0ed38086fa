import SymbolicRegression.Proofs.Float.Arithmetic
import SymbolicRegression.Proofs.Float.Order

set_option autoImplicit false
set_option relaxedAutoImplicit false

/-!
# Sums and products of numbers

The sum, the difference and the product of two finite numbers are the exact results rounded to the
grid of their magnitudes, or infinite if that is `2 ^ 1024` or more. Numbers compare as the
rational numbers that they stand for.

## Main definitions

* `SymbolicRegression.signed` — a magnitude with a sign.
* `SymbolicRegression.IsNumber` — the magnitude and the sign of a finite number.
* `SymbolicRegression.IsNearest` — the number that is nearest to a magnitude with a sign.

## Main results

* `SymbolicRegression.exists_isNumber` — every finite number has a magnitude and a sign.
* `SymbolicRegression.IsNumber.mul`, `SymbolicRegression.IsNumber.add`,
  `SymbolicRegression.IsNumber.sub` — the operations.
* `SymbolicRegression.IsNumber.lt_iff` — the order.
-/

namespace SymbolicRegression

open Float.Model Float.Model.UnpackedFloat

/-! ## Numbers with a magnitude -/

/-- A magnitude with a sign. -/
def signed (s : Sign) (y : ℚ) : ℚ :=
  match s with
  | .negative => -y
  | .positive => y

/-- The number has the magnitude and the sign. -/
def IsNumber (a : Float) (s : Sign) (y : ℚ) : Prop := Denotes s y (unpacked a)

variable {a b : Float} {s s₁ s₂ : Sign} {x y y₁ y₂ : ℚ}

/-- A magnitude is recovered from its signed form. -/
lemma abs_signed (s : Sign) (hy : 0 ≤ y) : |signed s y| = y := by
  cases s with
  | negative => rw [signed, abs_neg, abs_of_nonneg hy]
  | positive => exact abs_of_nonneg hy

/-- The opposite sign gives the opposite number. -/
@[simp] lemma signed_neg (s : Sign) (y : ℚ) : signed (-s) y = -signed s y := by
  cases s with
  | negative => exact (neg_neg y).symm
  | positive => rfl

/-- Nothing has no sign. -/
@[simp] lemma signed_zero (s : Sign) : signed s 0 = 0 := by
  cases s with
  | negative => exact neg_zero
  | positive => rfl

/-- **Every finite number has a magnitude and a sign.** -/
theorem exists_isNumber (h : a.isFinite = true) : ∃ s y, IsNumber a s y ∧ y < 2 ^ 1024 := by
  have hcanonical := canonical_unpacked a
  change (unpacked a).isFinite = true at h
  unfold IsNumber
  cases hu : unpacked a with
  | zero s => exact ⟨s, 0, ⟨rfl, rfl⟩, by positivity⟩
  | finite s m e hm =>
    rw [hu] at hcanonical
    obtain ⟨hlt, he, he', hfull⟩ := hcanonical
    exact ⟨s, m * 2 ^ e, ⟨rfl, rfl, hlt, he, hfull⟩, mul_zpow_lt hlt he'⟩
  | infinity s => simp [hu, UnpackedFloat.isFinite] at h
  | notANumber => simp [hu, UnpackedFloat.isFinite] at h

/-- A number with a magnitude is finite. -/
theorem IsNumber.isFinite (h : IsNumber a s y) : a.isFinite = true := by
  show (unpacked a).isFinite = true
  unfold IsNumber at h
  cases hu : unpacked a with
  | zero => rfl
  | finite => rfl
  | infinity => exact (hu ▸ h).elim
  | notANumber => exact (hu ▸ h).elim

/-- A number is determined by its magnitude and its sign. -/
theorem IsNumber.unique (ha : IsNumber a s y) (hb : IsNumber b s y) : a = b :=
  unpacked_injective (Denotes.unique ha hb)

/-- The number is the nearest one to a magnitude with a sign: it is infinite if the magnitude is
rounded to more than any number has. -/
def IsNearest (a : Float) (s : Sign) (x : ℚ) : Prop :=
  if rounded x < 2 ^ 1024 then IsNumber a s (rounded x) else unpacked a = .infinity s

/-- A packed canonical form is nearest to what has been rounded to its magnitude. -/
lemma isNearest_pack {u : UnpackedFloat} (h : Denotes s (rounded x) u) :
    IsNearest (.ofModel (.pack u)) s x := by
  unfold IsNearest
  split
  · rename_i hlt
    exact h.unpack_pack hlt
  · rename_i hle
    exact h.unpack_pack_of_le (not_lt.mp hle)

/-- The nearest number has the rounded magnitude if that is not too great. -/
theorem IsNearest.isNumber (h : IsNearest a s x) (hx : rounded x < 2 ^ 1024) :
    IsNumber a s (rounded x) := by
  rwa [IsNearest, if_pos hx] at h

/-- The nearest number is finite exactly when the rounded magnitude is not too great. -/
theorem IsNearest.isFinite_iff (h : IsNearest a s x) :
    a.isFinite = true ↔ rounded x < 2 ^ 1024 := by
  constructor
  · intro hfinite
    by_contra hx
    rw [IsNearest, if_neg hx] at h
    change (unpacked a).isFinite = true at hfinite
    rw [h] at hfinite
    simp [UnpackedFloat.isFinite] at hfinite
  · intro hx
    exact (h.isNumber hx).isFinite

/-! ## Products -/

/-- The mantissas of a product are multiplied and the exponents are added. -/
lemma mul_zpow_mul_zpow (m m' : ℕ) (e e' : ℤ) :
    (m * 2 ^ e * (m' * 2 ^ e') : ℚ) = (m * m' : ℕ) * 2 ^ (e + e') := by
  rw [zpow_add₀ (by norm_num)]
  push_cast
  ring

/-- A product is rounded if no bit of its grid is lost. -/
lemma denotes_mul_finite (s s' : Sign) {m m' : ℕ} {e e' : ℤ} (hm : 0 < m) (hm' : 0 < m')
    (hgrid : e + e' ≤ gridExponent (m * 2 ^ e * (m' * 2 ^ e'))) :
    Denotes (s * s') (rounded (m * 2 ^ e * (m' * 2 ^ e')))
      (UnpackedFloat.mul .binary64 (.finite s m e hm) (.finite s' m' e' hm')) := by
  have hpos : (0 : ℚ) < m * 2 ^ e * (m' * 2 ^ e') := by positivity
  refine denotes_roundWithAccuracy (s * s') hpos ?_ hgrid
  rw [mul_zpow_mul_zpow, mul_div_cancel_right₀ _ (by positivity)]
  exact holds_exact _

/-- **The product of canonical forms is rounded.**

**Proof sketch.** The product of two mantissas has enough bits for its grid, unless both of them
are short; then both exponents are least, and the finest grid is coarse enough. -/
theorem denotes_mul {u v : UnpackedFloat} (hu : Denotes s₁ y₁ u) (hv : Denotes s₂ y₂ v) :
    Denotes (s₁ * s₂) (rounded (y₁ * y₂)) (UnpackedFloat.mul .binary64 u v) := by
  cases u with
  | zero =>
    obtain ⟨rfl, rfl⟩ := hu
    cases v with
    | zero =>
      obtain ⟨rfl, rfl⟩ := hv
      exact ⟨rfl, by simp⟩
    | finite =>
      obtain ⟨rfl, -⟩ := hv
      exact ⟨rfl, by simp⟩
    | infinity => exact hv.elim
    | notANumber => exact hv.elim
  | finite s m e hm =>
    obtain ⟨rfl, rfl, hlt, he, hfull⟩ := hu
    cases v with
    | zero =>
      obtain ⟨rfl, rfl⟩ := hv
      exact ⟨rfl, by simp⟩
    | finite s' m' e' hm' =>
      obtain ⟨rfl, rfl, hlt', he', hfull'⟩ := hv
      refine denotes_mul_finite s s' hm hm' ?_
      by_cases hbits : 2 ^ 52 ≤ m * m'
      · refine le_gridExponent_of_le ?_
        rw [mul_zpow_mul_zpow]
        gcongr
        exact_mod_cast hbits
      · have hshort : m < 2 ^ 52 := lt_of_le_of_lt (Nat.le_mul_of_pos_right m hm') (by omega)
        have hshort' : m' < 2 ^ 52 := lt_of_le_of_lt (Nat.le_mul_of_pos_left m' hm) (by omega)
        exact le_trans (by omega) (le_gridExponent _)
    | infinity => exact hv.elim
    | notANumber => exact hv.elim
  | infinity => exact hu.elim
  | notANumber => exact hu.elim

/-- **The product of two numbers is rounded.** -/
theorem IsNumber.mul (ha : IsNumber a s₁ y₁) (hb : IsNumber b s₂ y₂) :
    IsNearest (a * b) (s₁ * s₂) (y₁ * y₂) :=
  isNearest_pack (denotes_mul ha hb)

/-! ## Sums -/

/-- A mantissa with a sign, as a rational number. -/
lemma signed_mul_zpow (s : Sign) (m : ℕ) (e : ℤ) :
    signed s (m * 2 ^ e) = (s.apply m : ℤ) * 2 ^ e := by
  cases s with
  | negative =>
    show -(m * 2 ^ e : ℚ) = ((-(m : ℤ) : ℤ) : ℚ) * 2 ^ e
    push_cast
    ring
  | positive => rfl

/-- A smaller exponent needs a greater mantissa. -/
lemma decreaseExponent_fst (m : ℕ) {e e' : ℤ} (h : e' ≤ e) :
    ((decreaseExponent m e e').1 * 2 ^ e' : ℚ) = m * 2 ^ e := by
  have hshift : ((e - e').toNat : ℤ) = e - e' := Int.toNat_of_nonneg (by omega)
  show ((m <<< (e - e').toNat : ℕ) * 2 ^ e' : ℚ) = _
  rw [Nat.shiftLeft_eq, Nat.cast_mul, Nat.cast_pow, Nat.cast_ofNat, mul_assoc, ← zpow_natCast,
    hshift, ← zpow_add₀ (by norm_num), sub_add_cancel]

/-- The sign of a whole number. -/
def signOf (m : ℤ) : Sign := if m < 0 then .negative else .positive

/-- A whole mantissa is recovered from its magnitude and its sign. -/
lemma signed_signOf (m e : ℤ) : signed (signOf m) |(m * 2 ^ e : ℚ)| = m * 2 ^ e := by
  unfold signOf
  split
  · rename_i hneg
    have hlt : (m * 2 ^ e : ℚ) < 0 :=
      mul_neg_of_neg_of_pos (by exact_mod_cast hneg) (by positivity)
    rw [signed, abs_of_neg hlt, neg_neg]
  · rename_i hpos
    have hle : (0 : ℚ) ≤ m := by exact_mod_cast not_lt.mp hpos
    exact abs_of_nonneg (by positivity)

/-- A whole mantissa with a sign is normalized to what it stands for, rounded. -/
lemma denotes_normalize (m e : ℤ) : Denotes (signOf m) (rounded |(m * 2 ^ e : ℚ)|)
    (UnpackedFloat.normalize .binary64 m e .positive) := by
  have habs : |(m * 2 ^ e : ℚ)| = (m.natAbs : ℕ) * 2 ^ e := by
    rw [abs_mul, abs_of_pos (by positivity : (0 : ℚ) < 2 ^ e), Nat.cast_natAbs, Int.cast_abs]
  rcases lt_trichotomy m 0 with hneg | rfl | hpos
  · rw [habs, signOf, if_pos hneg, UnpackedFloat.normalize, Int.compare_eq_lt.mpr hneg,
      show (-m).toNat = m.natAbs by omega]
    exact denotes_round _ (by omega)
  · simp [Denotes, UnpackedFloat.normalize, signOf]
  · rw [habs, signOf, if_neg hpos.not_gt, UnpackedFloat.normalize, Int.compare_eq_gt.mpr hpos,
      show m.toNat = m.natAbs by omega]
    exact denotes_round _ (by omega)

/-- A canonical form is its own sum with nothing. -/
lemma Denotes.self {u : UnpackedFloat} (h : Denotes s y u) :
    ∃ s', Denotes s' (rounded |signed s y|) u ∧ signed s' |signed s y| = signed s y := by
  refine ⟨s, ?_, ?_⟩
  · rwa [abs_signed s h.nonneg, h.rounded_eq]
  · rw [abs_signed s h.nonneg]

/-- **The sum of canonical forms is rounded.** -/
theorem denotes_add {u v : UnpackedFloat} (hu : Denotes s₁ y₁ u) (hv : Denotes s₂ y₂ v) :
    ∃ s, Denotes s (rounded |signed s₁ y₁ + signed s₂ y₂|) (UnpackedFloat.add .binary64 u v) ∧
      signed s |signed s₁ y₁ + signed s₂ y₂| = signed s₁ y₁ + signed s₂ y₂ := by
  cases u with
  | zero s =>
    obtain ⟨rfl, rfl⟩ := hu
    rw [signed_zero, zero_add]
    cases v with
    | zero s' =>
      obtain ⟨rfl, rfl⟩ := hv
      rw [UnpackedFloat.add]
      split <;> exact ⟨_, ⟨rfl, by simp⟩, by simp⟩
    | finite => exact hv.self
    | infinity => exact hv.elim
    | notANumber => exact hv.elim
  | finite s m e hm =>
    cases v with
    | zero s' =>
      have hself := hu.self
      obtain ⟨rfl, rfl⟩ := hv
      rwa [signed_zero, add_zero]
    | finite s' m' e' hm' =>
      obtain ⟨rfl, rfl, -⟩ := hu
      obtain ⟨rfl, rfl, -⟩ := hv
      have hsum : signed s (m * 2 ^ e) + signed s' (m' * 2 ^ e') =
          ((s.apply (decreaseExponent m e (min e e')).1 +
            s'.apply (decreaseExponent m' e' (min e e')).1 : ℤ) : ℚ) * 2 ^ min e e' := by
        rw [← decreaseExponent_fst m (min_le_left e e'),
          ← decreaseExponent_fst m' (min_le_right e e'), signed_mul_zpow, signed_mul_zpow]
        push_cast
        ring
      rw [hsum]
      exact ⟨_, denotes_normalize _ _, signed_signOf _ _⟩
    | infinity => exact hv.elim
    | notANumber => exact hv.elim
  | infinity => exact hu.elim
  | notANumber => exact hu.elim

/-- **The sum of two numbers is rounded.** -/
theorem IsNumber.add (ha : IsNumber a s₁ y₁) (hb : IsNumber b s₂ y₂) :
    ∃ s, signed s |signed s₁ y₁ + signed s₂ y₂| = signed s₁ y₁ + signed s₂ y₂ ∧
      IsNearest (a + b) s |signed s₁ y₁ + signed s₂ y₂| := by
  obtain ⟨s, hdenotes, hsign⟩ := denotes_add ha hb
  exact ⟨s, hsign, isNearest_pack hdenotes⟩

/-! ## Differences -/

/-- The opposite of a canonical form. -/
lemma Denotes.neg {u : UnpackedFloat} (h : Denotes s y u) : Denotes (-s) y u.neg := by
  cases u with
  | zero => exact ⟨congrArg _ h.1, h.2⟩
  | finite => exact ⟨congrArg _ h.1, h.2⟩
  | infinity => exact h
  | notANumber => exact h

/-- The opposite of a number. -/
theorem IsNumber.neg (h : IsNumber a s y) : IsNumber (-a) (-s) y := by
  rw [IsNumber, unpacked_neg]
  exact Denotes.neg h

/-- The opposite of a nearest number. -/
theorem IsNearest.neg (h : IsNearest a s x) : IsNearest (-a) (-s) x := by
  unfold IsNearest at h ⊢
  split
  · rename_i hx
    rw [if_pos hx] at h
    exact IsNumber.neg h
  · rename_i hx
    rw [if_neg hx] at h
    rw [unpacked_neg, h]
    rfl

/-- Subtraction adds the opposite. -/
lemma sub_eq_add_opposite (u v : UnpackedFloat) :
    UnpackedFloat.sub .binary64 u v = UnpackedFloat.add .binary64 u v.neg := by
  cases u <;> cases v <;> try rfl
  case finite.finite s m e hm s' m' e' hm' =>
    have happly : ∀ n : ℤ, (-s').apply n = -s'.apply n := fun n => by
      cases s' with
      | negative => exact (neg_neg n).symm
      | positive => rfl
    simp only [UnpackedFloat.sub, UnpackedFloat.add, UnpackedFloat.neg, happly, ← sub_eq_add_neg]

/-- **The difference of two numbers is rounded.** -/
theorem IsNumber.sub (ha : IsNumber a s₁ y₁) (hb : IsNumber b s₂ y₂) :
    ∃ s, signed s |signed s₁ y₁ - signed s₂ y₂| = signed s₁ y₁ - signed s₂ y₂ ∧
      IsNearest (a - b) s |signed s₁ y₁ - signed s₂ y₂| := by
  obtain ⟨s, hdenotes, hsign⟩ := denotes_add ha (Denotes.neg hb)
  rw [← sub_eq_add_opposite, signed_neg, ← sub_eq_add_neg] at hdenotes
  rw [signed_neg, ← sub_eq_add_neg] at hsign
  exact ⟨s, hsign, isNearest_pack hdenotes⟩

/-! ## Order -/

/-- Canonical forms of one sign are ordered by their exponents, then by their mantissas. -/
lemma mul_zpow_lt_iff {m m' : ℕ} {e e' : ℤ} (hm : m < 2 ^ 53) (he : -1074 ≤ e)
    (hfull : 2 ^ 52 ≤ m ∨ e = -1074) (hm' : m' < 2 ^ 53) (he' : -1074 ≤ e')
    (hfull' : 2 ^ 52 ≤ m' ∨ e' = -1074) :
    (m * 2 ^ e : ℚ) < m' * 2 ^ e' ↔ e < e' ∨ e = e' ∧ m < m' := by
  rcases lt_trichotomy e e' with hlt | rfl | hgt
  · exact iff_of_true (mul_zpow_lt_of_exponent_lt hm he hfull' hlt) (.inl hlt)
  · rw [mul_lt_mul_iff_left₀ (by positivity)]
    simp
  · have hgreater := mul_zpow_lt_of_exponent_lt hm' he' hfull hgt
    exact iff_of_false hgreater.not_gt (by omega)

/-- The rank of canonical forms follows the numbers that they stand for. -/
theorem Denotes.rank_lt_iff {u v : UnpackedFloat} (hu : Denotes s₁ y₁ u) (hv : Denotes s₂ y₂ v) :
    unpackedRank u < unpackedRank v ↔ signed s₁ y₁ < signed s₂ y₂ := by
  cases u with
  | zero =>
    obtain ⟨-, rfl⟩ := hu
    rw [signed_zero]
    cases v with
    | zero =>
      obtain ⟨-, rfl⟩ := hv
      simp [unpackedRank]
    | finite s' m' e' hm' =>
      obtain ⟨rfl, rfl, -⟩ := hv
      have hpos : (0 : ℚ) < m' * 2 ^ e' := by positivity
      cases s' with
      | negative => simp [unpackedRank, Prod.Lex.toLex_lt_toLex, signed, hpos.le]
      | positive =>
        rw [signed]
        exact iff_of_true (by simp [unpackedRank, Prod.Lex.toLex_lt_toLex]) hpos
    | infinity => exact hv.elim
    | notANumber => exact hv.elim
  | finite s m e hm =>
    obtain ⟨rfl, rfl, hlt, he, hfull⟩ := hu
    have hpos : (0 : ℚ) < m * 2 ^ e := by positivity
    cases v with
    | zero =>
      obtain ⟨-, rfl⟩ := hv
      rw [signed_zero]
      cases s with
      | negative =>
        rw [signed, neg_lt_zero]
        exact iff_of_true (by simp [unpackedRank, Prod.Lex.toLex_lt_toLex]) hpos
      | positive => simp [unpackedRank, Prod.Lex.toLex_lt_toLex, signed, hpos.le]
    | finite s' m' e' hm' =>
      obtain ⟨rfl, rfl, hlt', he', hfull'⟩ := hv
      have hpos' : (0 : ℚ) < m' * 2 ^ e' := by positivity
      cases s with
      | negative =>
        cases s' with
        | negative =>
          simp [unpackedRank, Prod.Lex.toLex_lt_toLex, signed, @eq_comm ℤ e e',
            mul_zpow_lt_iff hlt' he' hfull' hlt he hfull]
        | positive =>
          simp [unpackedRank, Prod.Lex.toLex_lt_toLex, signed]
          linarith
      | positive =>
        cases s' with
        | negative =>
          simp [unpackedRank, Prod.Lex.toLex_lt_toLex, signed]
          linarith
        | positive =>
          simp [unpackedRank, Prod.Lex.toLex_lt_toLex, signed,
            mul_zpow_lt_iff hlt he hfull hlt' he' hfull']
    | infinity => exact hv.elim
    | notANumber => exact hv.elim
  | infinity => exact hu.elim
  | notANumber => exact hu.elim

/-- **Numbers compare as the rational numbers that they stand for.** -/
theorem IsNumber.lt_iff (ha : IsNumber a s₁ y₁) (hb : IsNumber b s₂ y₂) :
    a < b ↔ signed s₁ y₁ < signed s₂ y₂ :=
  (lt_iff_rank_lt (isNaN_of_isFinite ha.isFinite) (isNaN_of_isFinite hb.isFinite)).trans
    (Denotes.rank_lt_iff ha hb)

/-- Numbers are in order as the rational numbers that they stand for. -/
theorem IsNumber.le_iff (ha : IsNumber a s₁ y₁) (hb : IsNumber b s₂ y₂) :
    a ≤ b ↔ signed s₁ y₁ ≤ signed s₂ y₂ := by
  have hlt := hb.lt_iff ha
  have ha' := isNaN_of_isFinite ha.isFinite
  have hb' := isNaN_of_isFinite hb.isFinite
  rw [lt_iff_rank_lt hb' ha'] at hlt
  rw [le_iff_rank_le ha' hb', ← not_lt, hlt, not_lt]

end SymbolicRegression
