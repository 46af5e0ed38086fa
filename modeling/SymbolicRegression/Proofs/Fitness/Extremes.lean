import SymbolicRegression.Proofs.Fitness.Ranking

set_option autoImplicit false
set_option relaxedAutoImplicit false

/-!
# Greatest and least fitness

Errors add up to a number with a plus sign, since a sum of zeros is a negative zero only if all of
them are. So every fitness is negative infinity or a number with a minus sign: of the two zeros only
one is ever a fitness. Fitness of one rank is therefore the same number, and wherever the greatest
and the least fitness of a population are looked for, they are found to the bit.

## Main definitions

* `SymbolicRegression.IsDeficit` — the numbers that can be a fitness.

## Main results

* `SymbolicRegression.Program.isDeficit_fitnessOn` — the fitness of a program is one of them.
* `SymbolicRegression.IsDeficit.eq_of_rank_eq` — they are told apart by their ranks.
* `SymbolicRegression.foldl_lesser_mem`, `SymbolicRegression.foldl_lesser_le` — the least of a row
  of numbers.
-/

namespace SymbolicRegression

open Float.Model Float.Model.UnpackedFloat

variable {a b : Float}

/-! ## Sums with a plus sign -/

/-- The number is finite and has a plus sign. -/
def IsPlus (x : Float) : Prop := ∃ y, IsNumber x .positive y

/-- The zero with a plus sign. -/
theorem isPlus_zero : IsPlus 0.0 := ⟨0, rfl, rfl⟩

/-- The magnitude of a canonical form has a plus sign. -/
lemma Denotes.abs {u : UnpackedFloat} {s : Sign} {y : ℚ} (h : Denotes s y u) :
    Denotes .positive y u.abs := by
  cases u with
  | zero | finite => exact ⟨rfl, h.2⟩
  | infinity | notANumber => exact h

/-- A finite magnitude has a plus sign. -/
theorem isPlus_abs (h : a.isFinite = true) : IsPlus a.abs := by
  obtain ⟨s, y, hnumber, -⟩ := exists_isNumber h
  refine ⟨y, ?_⟩
  rw [IsNumber, unpacked_abs]
  exact Denotes.abs hnumber

/-- **A finite sum of two numbers with a plus sign has one.** -/
theorem IsPlus.add (ha : IsPlus a) (hb : IsPlus b) (h : (a + b).isFinite = true) :
    IsPlus (a + b) := by
  obtain ⟨y₁, hnumber₁⟩ := ha
  obtain ⟨y₂, hnumber₂⟩ := hb
  obtain ⟨s, hsign, hnearest⟩ := hnumber₁.add hnumber₂
  have hsum := hnearest.isNumber (hnearest.isFinite_iff.mp h)
  cases s with
  | positive => exact ⟨_, hsum⟩
  | negative =>
    -- the exact sum is zero, so both terms are
    have hnonneg₁ := hnumber₁.nonneg
    have hnonneg₂ := hnumber₂.nonneg
    simp only [signed] at hsign
    have habs := abs_nonneg (y₁ + y₂)
    obtain rfl : y₁ = 0 := by linarith
    obtain rfl : y₂ = 0 := by linarith
    have hzero : IsNumber 0.0 .positive 0 := ⟨rfl, rfl⟩
    rw [hnumber₁.unique hzero, hnumber₂.unique hzero]
    exact isPlus_zero

/-- A finite sum of a row of numbers with a plus sign has one. -/
theorem isPlus_foldl_add {terms : List Float} {start : Float} (hstart : IsPlus start)
    (hterms : ∀ y ∈ terms, y.isFinite = true → IsPlus y)
    (h : (terms.foldl (· + ·) start).isFinite = true) : IsPlus (terms.foldl (· + ·) start) := by
  induction terms generalizing start with
  | nil => exact hstart
  | cons term terms ih =>
    obtain ⟨hterm, hterms⟩ := List.forall_mem_cons.mp hterms
    have hsum : (start + term).isFinite = true := isFinite_of_isFinite_foldl h
    exact ih (hstart.add (hterm (isFinite_of_isFinite_add hsum).2) hsum) hterms h

/-! ## The numbers that can be a fitness -/

/-- The number is negative infinity, or finite and has a minus sign. -/
def IsDeficit (x : Float) : Prop := x = -(1.0 / 0.0) ∨ ∃ y, IsNumber x .negative y

/-- **The fitness of a program is a deficit.** -/
theorem Program.isDeficit_fitnessOn (p : Program) (cases : List FitnessCase)
    (constants : Array Float) : IsDeficit (p.fitnessOn cases constants) := by
  cases herror : (p.errorOn cases constants).isFinite with
  | false => exact .inl (fitnessOn_of_not_isFinite herror)
  | true =>
    have hplus : IsPlus (p.errorOn cases constants) := by
      rw [errorOn_eq_foldl] at herror ⊢
      refine isPlus_foldl_add isPlus_zero ?_ herror
      intro y hy hfinite
      obtain ⟨c, -, rfl⟩ := List.mem_map.mp hy
      exact isPlus_abs ((isFinite_abs _).symm.trans hfinite)
    obtain ⟨y, hnumber⟩ := hplus
    rw [(fitnessOn_of_isFinite herror).1]
    exact .inr ⟨y, hnumber.neg⟩

/-- **Deficits of one rank are the same number.** -/
theorem IsDeficit.eq_of_rank_eq (ha : IsDeficit a) (hb : IsDeficit b) (h : rank a = rank b) :
    a = b := by
  have hless {x : Float} (hx : x.isFinite = true) : rank (-(1.0 / 0.0)) < rank x :=
    (lt_iff_rank_lt (by decide +kernel) (isNaN_of_isFinite hx)).mp (neg_infinity_lt hx)
  rcases ha with rfl | ⟨y₁, ha⟩ <;> rcases hb with rfl | ⟨y₂, hb⟩
  · rfl
  · exact absurd h (hless hb.isFinite).ne
  · exact absurd h (hless ha.isFinite).ne'
  · have hle := (Denotes.rank_lt_iff ha hb).not.mp h.not_lt
    have hge := (Denotes.rank_lt_iff hb ha).not.mp h.symm.not_lt
    obtain rfl : y₁ = y₂ := by
      simp only [signed] at hle hge
      linarith
    exact ha.unique hb

/-! ## The least of a row of numbers -/

/-- The smaller of two numbers is one of them. -/
theorem lesser_eq_or (a b : Float) : lesser a b = a ∨ lesser a b = b := by
  unfold lesser
  split
  · exact .inr rfl
  · exact .inl rfl

/-- The smaller of two numbers that are defined is not above either. -/
theorem rank_lesser_le (ha : a.isNaN = false) (hb : b.isNaN = false) :
    rank (lesser a b) ≤ rank a ∧ rank (lesser a b) ≤ rank b := by
  unfold lesser
  split
  · rename_i hlt
    exact ⟨((lt_iff_rank_lt hb ha).mp hlt).le, le_rfl⟩
  · rename_i hnot
    exact ⟨le_rfl, not_lt.mp fun hlt => hnot ((lt_iff_rank_lt hb ha).mpr hlt)⟩

/-- The least number that is met is the first one or one of those behind it. -/
theorem foldl_lesser_mem (l : List Float) (start : Float) :
    l.foldl lesser start = start ∨ l.foldl lesser start ∈ l := by
  induction l generalizing start with
  | nil => exact .inl rfl
  | cons x l ih =>
    rw [List.foldl_cons]
    rcases ih (lesser start x) with heq | hmem
    · rw [heq]
      refine (lesser_eq_or start x).imp_right fun hx => ?_
      rw [hx]
      exact List.mem_cons_self
    · exact .inr (List.mem_cons_of_mem x hmem)

/-- **The least number that is met is not above any other**, if all of them are defined. -/
theorem foldl_lesser_le {l : List Float} {start : Float} (hstart : start.isNaN = false)
    (hl : ∀ x ∈ l, x.isNaN = false) : rank (l.foldl lesser start) ≤ rank start ∧
      ∀ x ∈ l, rank (l.foldl lesser start) ≤ rank x := by
  induction l generalizing start with
  | nil => exact ⟨le_rfl, nofun⟩
  | cons x l ih =>
    obtain ⟨hx, hl⟩ := List.forall_mem_cons.mp hl
    have hdefined : (lesser start x).isNaN = false := by
      rcases lesser_eq_or start x with h | h <;> rw [h] <;> assumption
    obtain ⟨hle₁, hle₂⟩ := rank_lesser_le hstart hx
    obtain ⟨hle, hrest⟩ := ih hdefined hl
    exact ⟨hle.trans hle₁, List.forall_mem_cons.mpr ⟨hle.trans hle₂, hrest⟩⟩

end SymbolicRegression
