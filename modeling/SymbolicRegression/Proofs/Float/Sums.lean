import SymbolicRegression.Proofs.Float.Operations

set_option autoImplicit false
set_option relaxedAutoImplicit false

/-!
# Sums

Rounding passes no number: a number that is not above the exact sum is not above the rounded one
either. So a finite sum with a term that is not below zero is not below its other term, and a row of
such terms does not add up to less than one of them. A sum with a term that is infinite or undefined
is never finite again, so if a row of terms is added up and the last sum is finite, then every sum
on the way has been finite.

## Main definitions

* `SymbolicRegression.IsMagnitude` — numbers that are undefined or not below zero.

## Main results

* `SymbolicRegression.IsNumber.le_nearest`, `SymbolicRegression.IsNumber.nearest_le` — rounding
  passes no number.
* `SymbolicRegression.isFinite_of_isFinite_add` — a sum is finite only if both terms are.
* `SymbolicRegression.abs_sub_of_zero` — distances from zero.
* `SymbolicRegression.IsMagnitude.le_add`, `SymbolicRegression.IsMagnitude.le_add_left` — finite
  sums with a magnitude.
* `SymbolicRegression.forall_isFinite_scanl_iff`, `SymbolicRegression.rank_le_foldl_add` — rows of
  terms.
-/

namespace SymbolicRegression

open Float.Model Float.Model.UnpackedFloat

variable {a b c : Float} {s s₁ s₂ s₃ : Sign} {x y₁ y₂ y₃ : ℚ}

/-! ## Rounding passes no number -/

/-- A magnitude with a sign is not moved below a number. -/
lemma signed_le_signed_rounded (hy : 0 ≤ y₁) (hself : rounded y₁ = y₁) (hsign : signed s |x| = x)
    (h : signed s₁ y₁ ≤ x) : signed s₁ y₁ ≤ signed s (rounded |x|) := by
  have hx := abs_nonneg x
  have hround := rounded_nonneg |x|
  cases s with
  | positive =>
    cases s₁ with
    | positive =>
      have hmono := rounded_mono hy (h.trans_eq hsign.symm)
      rwa [hself] at hmono
    | negative => exact (neg_nonpos.mpr hy).trans hround
  | negative =>
    replace hsign : -|x| = x := hsign
    cases s₁ with
    | positive =>
      -- a number that is not negative stands below nothing but zero
      replace h : y₁ ≤ x := h
      have hzero : |x| = 0 := by linarith
      rw [hzero, rounded_zero, signed_zero]
      show y₁ ≤ 0
      linarith
    | negative =>
      replace h : -y₁ ≤ x := h
      have hmono := rounded_mono hx (show |x| ≤ y₁ by linarith)
      rw [hself] at hmono
      exact neg_le_neg hmono

/-- **A number below a sum is below its nearest number.** -/
theorem IsNumber.le_nearest (ha : IsNumber a s₁ y₁) (hsign : signed s |x| = x)
    (h : signed s₁ y₁ ≤ x) : signed s₁ y₁ ≤ signed s (rounded |x|) :=
  signed_le_signed_rounded ha.nonneg ha.rounded_eq hsign h

/-- **A number above a sum is above its nearest number.** -/
theorem IsNumber.nearest_le (ha : IsNumber a s₁ y₁) (hsign : signed s |x| = x)
    (h : x ≤ signed s₁ y₁) : signed s (rounded |x|) ≤ signed s₁ y₁ := by
  have hopposite := @signed_le_signed_rounded (-s) (-s₁) (-x) y₁ ha.nonneg ha.rounded_eq
    (by rw [abs_neg, signed_neg, hsign]) (by rw [signed_neg]; linarith)
  rw [abs_neg, signed_neg, signed_neg] at hopposite
  linarith

/-! ## Sums that are finite -/

/-- A sum with a term that is not finite is infinite or undefined. -/
lemma add_of_not_isFinite {u v : UnpackedFloat} (h : u.isFinite = false ∨ v.isFinite = false) :
    (∃ s, UnpackedFloat.add .binary64 u v = .infinity s) ∨
      UnpackedFloat.add .binary64 u v = .notANumber := by
  rcases u with s | _ | s | ⟨s, m, e, hm⟩ <;> rcases v with s' | _ | s' | ⟨s', m', e', hm'⟩
  case infinity.infinity =>
    rw [UnpackedFloat.add]
    split
    · exact .inl ⟨s, rfl⟩
    · exact .inr rfl
  -- two finite terms are left out by the hypothesis
  all_goals first
    | exact .inl ⟨_, rfl⟩
    | exact .inr rfl
    | simp [UnpackedFloat.isFinite] at h

/-- **A sum is finite only if both terms are.** -/
theorem isFinite_of_isFinite_add (h : (a + b).isFinite = true) :
    a.isFinite = true ∧ b.isFinite = true := by
  by_contra hnot
  rw [Decidable.not_and_iff_or_not, Bool.not_eq_true, Bool.not_eq_true] at hnot
  change (Float.Model.pack
    (UnpackedFloat.add .binary64 (unpacked a) (unpacked b))).unpack.isFinite = true at h
  rcases add_of_not_isFinite (u := unpacked a) (v := unpacked b) hnot with ⟨s, hsum⟩ | hsum
  · have hcanonical : Canonical (.infinity s) := trivial
    rw [hsum, unpack_pack hcanonical] at h
    cases h
  · have hcanonical : Canonical .notANumber := trivial
    rw [hsum, unpack_pack hcanonical] at h
    cases h

/-! ## Magnitudes -/

/-- The number is undefined or not below zero. -/
def IsMagnitude (x : Float) : Prop := 0 ≤ rank x

/-- The magnitude of a canonical number is canonical. -/
lemma Canonical.abs {u : UnpackedFloat} (h : Canonical u) : Canonical u.abs := by
  cases u <;> exact h

/-- Taking the magnitude drops the sign and nothing else. -/
theorem unpacked_abs (x : Float) : unpacked x.abs = (unpacked x).abs :=
  unpack_pack (canonical_unpacked x).abs

/-- The magnitude of a number is finite just if the number is. -/
theorem isFinite_abs (x : Float) : x.abs.isFinite = x.isFinite := by
  show (unpacked x.abs).isFinite = (unpacked x).isFinite
  rw [unpacked_abs]
  cases unpacked x <;> rfl

/-- The magnitude of a number is not below zero. -/
theorem isMagnitude_abs (x : Float) : IsMagnitude x.abs := by
  rw [IsMagnitude, rank, unpacked_abs]
  rcases unpacked x with s | _ | s | ⟨s, m, e, hm⟩ <;>
    simp [UnpackedFloat.abs, unpackedRank, Prod.Lex.le_iff]

/-- What is taken from a zero keeps its magnitude. -/
lemma abs_zero_sub (s : Sign) (u : UnpackedFloat) :
    (UnpackedFloat.sub .binary64 (.zero s) u).abs = u.abs := by
  cases u with
  | zero s' => cases s <;> cases s' <;> rfl
  | infinity | notANumber | finite => rfl

/-- A canonical number that is taken from a zero gives a canonical number. -/
lemma Canonical.zero_sub {u : UnpackedFloat} (h : Canonical u) (s : Sign) :
    Canonical (UnpackedFloat.sub .binary64 (.zero s) u) := by
  cases u with
  | zero s' => cases s <;> cases s' <;> trivial
  | infinity | notANumber | finite => exact h

/-- **The distance of a number from a zero is its magnitude.** -/
theorem abs_sub_of_zero {z : Float} (hz : z == 0.0) (t : Float) : (z - t).abs = t.abs := by
  obtain ⟨s, hs⟩ : ∃ s, unpacked z = .zero s := by
    rcases eq_zero_or_eq_neg_zero hz with rfl | rfl
    · exact ⟨.positive, by rfl⟩
    · exact ⟨.negative, by rfl⟩
  have hsub : unpacked (z - t) = UnpackedFloat.sub .binary64 (.zero s) (unpacked t) := by
    have hcanonical := (canonical_unpacked t).zero_sub s
    rw [← hs] at hcanonical ⊢
    exact unpack_pack hcanonical
  apply unpacked_injective
  rw [unpacked_abs, unpacked_abs, hsub, abs_zero_sub]

/-- A finite number is a magnitude if the rational number that it stands for is not negative. -/
lemma IsNumber.isMagnitude_iff (h : IsNumber a s y₁) : IsMagnitude a ↔ 0 ≤ signed s y₁ := by
  have hzero : Denotes .positive 0 (.zero .positive) := ⟨rfl, rfl⟩
  rw [IsMagnitude, ← not_lt, ← not_lt]
  exact not_congr (Denotes.rank_lt_iff h hzero)

/-- A finite sum is not below a number that is not above the exact sum. -/
lemma IsNumber.le_add (ha : IsNumber a s₁ y₁) (hb : IsNumber b s₂ y₂) (hc : IsNumber c s₃ y₃)
    (h : (a + b).isFinite = true) (hle : signed s₃ y₃ ≤ signed s₁ y₁ + signed s₂ y₂) :
    c ≤ a + b := by
  obtain ⟨s, hsign, hnearest⟩ := ha.add hb
  rw [hc.le_iff (hnearest.isNumber (hnearest.isFinite_iff.mp h))]
  exact hc.le_nearest hsign hle

/-- **A finite sum with a magnitude is not below the other term.** -/
theorem IsMagnitude.le_add (hb : IsMagnitude b) (h : (a + b).isFinite = true) : a ≤ a + b := by
  obtain ⟨hfinite₁, hfinite₂⟩ := isFinite_of_isFinite_add h
  obtain ⟨s₁, y₁, hnumber₁, -⟩ := exists_isNumber hfinite₁
  obtain ⟨s₂, y₂, hnumber₂, -⟩ := exists_isNumber hfinite₂
  have hnonneg := hnumber₂.isMagnitude_iff.mp hb
  exact hnumber₁.le_add hnumber₂ hnumber₁ h (by linarith)

/-- **Nor is it if the magnitude comes first.** -/
theorem IsMagnitude.le_add_left (ha : IsMagnitude a) (h : (a + b).isFinite = true) : b ≤ a + b := by
  obtain ⟨hfinite₁, hfinite₂⟩ := isFinite_of_isFinite_add h
  obtain ⟨s₁, y₁, hnumber₁, -⟩ := exists_isNumber hfinite₁
  obtain ⟨s₂, y₂, hnumber₂, -⟩ := exists_isNumber hfinite₂
  have hnonneg := hnumber₁.isMagnitude_iff.mp ha
  exact hnumber₁.le_add hnumber₂ hnumber₂ h (by linarith)

/-- A finite sum of two magnitudes ranks with neither of them above it. -/
theorem IsMagnitude.rank_le_add (ha : IsMagnitude a) (hb : IsMagnitude b)
    (h : (a + b).isFinite = true) : rank a ≤ rank (a + b) ∧ rank b ≤ rank (a + b) := by
  obtain ⟨hfinite₁, hfinite₂⟩ := isFinite_of_isFinite_add h
  have hsum := isNaN_of_isFinite h
  exact ⟨(le_iff_rank_le (isNaN_of_isFinite hfinite₁) hsum).mp (hb.le_add h),
    (le_iff_rank_le (isNaN_of_isFinite hfinite₂) hsum).mp (ha.le_add_left h)⟩

/-- A finite sum of magnitudes is a magnitude. -/
theorem IsMagnitude.add (ha : IsMagnitude a) (hb : IsMagnitude b) (h : (a + b).isFinite = true) :
    IsMagnitude (a + b) :=
  le_trans ha (ha.rank_le_add hb h).1

/-- The negative of a magnitude that is defined is not above zero. -/
theorem IsMagnitude.neg_le_zero (ha : IsMagnitude a) (h : a.isNaN = false) : -a ≤ 0.0 := by
  have hzero : (0.0 : Float).isNaN = false := by rfl
  have hrank : rank 0.0 = 0 := by rfl
  rw [le_iff_rank_le ((isNaN_neg a).trans h) hzero, rank_neg, hrank]
  exact neg_nonpos.mpr ha

/-- Negative infinity is below every finite number. -/
theorem neg_infinity_lt (h : a.isFinite = true) : -(1.0 / 0.0) < a := by
  have hinfinity : (-(1.0 / 0.0) : Float).isNaN = false := by decide +kernel
  have hrank : rank (-(1.0 / 0.0)) = toLex (-2, toLex (0, 0)) := by decide +kernel
  rw [lt_iff_rank_lt hinfinity (isNaN_of_isFinite h), hrank, rank]
  change (unpacked a).isFinite = true at h
  rcases hu : unpacked a with s | _ | s | ⟨s, m, e, hm⟩
  case zero | finite => cases s <;> simp [unpackedRank, Prod.Lex.toLex_lt_toLex]
  all_goals simp [hu, UnpackedFloat.isFinite] at h

/-! ## Rows of terms -/

/-- Nothing that is not finite is added up to a finite sum. -/
lemma isFinite_of_isFinite_foldl {terms : List Float} {start : Float}
    (h : (terms.foldl (· + ·) start).isFinite = true) : start.isFinite = true := by
  induction terms generalizing start with
  | nil => exact h
  | cons term terms ih => exact (isFinite_of_isFinite_add (ih h)).1

/-- **All sums on the way are finite just if the last one is**: what has become infinite or
undefined stays so, whatever is added to it. -/
theorem forall_isFinite_scanl_iff {terms : List Float} {start : Float} :
    (∀ y ∈ terms.scanl (· + ·) start, y.isFinite = true) ↔
      (terms.foldl (· + ·) start).isFinite = true := by
  induction terms generalizing start with
  | nil => simp
  | cons term terms ih =>
    rw [List.scanl_cons, List.forall_mem_cons, ih, List.foldl_cons]
    refine and_iff_right_of_imp fun h => ?_
    exact (isFinite_of_isFinite_add (isFinite_of_isFinite_foldl h)).1

/-- **A finite sum of magnitudes is not below any of them**, nor below what it starts from. -/
theorem rank_le_foldl_add {terms : List Float} {start : Float} (hstart : IsMagnitude start)
    (hterms : ∀ y ∈ terms, IsMagnitude y) (h : (terms.foldl (· + ·) start).isFinite = true) :
    rank start ≤ rank (terms.foldl (· + ·) start) ∧
      ∀ y ∈ terms, rank y ≤ rank (terms.foldl (· + ·) start) := by
  induction terms generalizing start with
  | nil => exact ⟨le_rfl, nofun⟩
  | cons term terms ih =>
    obtain ⟨hterm, hterms⟩ := List.forall_mem_cons.mp hterms
    have hsum : (start + term).isFinite = true := isFinite_of_isFinite_foldl h
    obtain ⟨hle₁, hle₂⟩ := hstart.rank_le_add hterm hsum
    obtain ⟨hle, hrest⟩ := ih (hstart.add hterm hsum) hterms h
    exact ⟨hle₁.trans hle, List.forall_mem_cons.mpr ⟨hle₂.trans hle, hrest⟩⟩

/-- A finite sum of a row of magnitudes is a magnitude. -/
theorem isMagnitude_foldl_add {terms : List Float} {start : Float} (hstart : IsMagnitude start)
    (hterms : ∀ y ∈ terms, IsMagnitude y) (h : (terms.foldl (· + ·) start).isFinite = true) :
    IsMagnitude (terms.foldl (· + ·) start) :=
  le_trans hstart (rank_le_foldl_add hstart hterms h).1

end SymbolicRegression
