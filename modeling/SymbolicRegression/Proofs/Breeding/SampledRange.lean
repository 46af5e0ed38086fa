import SymbolicRegression.Proofs.Breeding.ConstantRange
import SymbolicRegression.Proofs.Float.Sums
import SymbolicRegression.Random.Xoshiro

set_option autoImplicit false
set_option relaxedAutoImplicit false

/-!
# The ends of the range of random constants

Every constant that is drawn lies between the ends of the range, and rounding can carry it up to the
upper end itself: the exact sum of the lower end and the share is less than the upper end, but it
may be nearer to the upper end than to any number below it. This does not happen when the range
starts at zero or below and its width needs no rounding, because the share then stays one step of
the grid of the width below the width, and the grid of the upper end is not coarser.

## Main definitions

* `SymbolicRegression.Problem.SpansZero` — the ranges whose upper end is never drawn.

## Main results

* `SymbolicRegression.rounded_sum_lt` — a sum that stays below the upper end.
* `SymbolicRegression.Bindings.sampled_between` — where the constants of a run lie.
* `SymbolicRegression.Bindings.sampled_upper_end` — the upper end is drawn.
-/

namespace SymbolicRegression

open Float.Model.UnpackedFloat

variable {a b : Float} {s s₁ s₂ : Sign} {x y₁ y₂ : ℚ}

/-! ## Sums below the upper end -/

/-- A magnitude that is not moved, in units of its grid: it has fifty-three bits, unless the grid is
the finest one. -/
lemma exists_units (hpos : 0 < x) (hself : rounded x = x) :
    ∃ n : ℕ, x = (n + 1 : ℕ) * 2 ^ gridExponent x ∧ n + 1 < 2 ^ 53 ∧
      (-1074 < gridExponent x → 2 ^ 52 ≤ n + 1) := by
  have hx : x = roundEven (inUnits x) * 2 ^ gridExponent x := hself.symm
  have hunits : inUnits x = roundEven (inUnits x) := (div_eq_iff (by positivity)).mpr hx
  obtain ⟨n, hn⟩ : ∃ n, roundEven (inUnits x) = n + 1 := by
    refine Nat.exists_eq_add_one.mpr (Nat.pos_of_ne_zero fun hzero => hpos.ne' ?_)
    rw [hx, hzero, Nat.cast_zero, zero_mul]
  rw [hn] at hx hunits
  refine ⟨n, hx, ?_, fun hcoarse => ?_⟩
  · have hlt := inUnits_lt x
    rw [hunits] at hlt
    exact_mod_cast hlt
  · have hle := le_inUnits hpos hcoarse
    rw [hunits] at hle
    exact_mod_cast hle

/-- A magnitude is not rounded beyond a number of at most fifty-three bits. -/
lemma rounded_le_of_le {n : ℕ} {g : ℤ} (hx : 0 ≤ x) (hg : -1074 ≤ g) (hn : n ≤ 2 ^ 53)
    (h : x ≤ n * 2 ^ g) : rounded x ≤ n * 2 ^ g :=
  (rounded_mono hx h).trans_eq (rounded_grid hg hn)

/-- **A share of a width stays one step of the grid below it**, or half a step if the width is a
power of two. -/
lemma rounded_share_le_sub {width : ℚ} {n k : ℕ} (hn : width = (n + 1 : ℕ) * 2 ^ gridExponent width)
    (hcoarse : -1074 < gridExponent width) (hbits : 2 ^ 52 ≤ n + 1) (hk : k < 2 ^ 53) :
    rounded (width * (k / 2 ^ 53)) ≤ width - 2 ^ gridExponent width ∨
      n + 1 = 2 ^ 52 ∧ rounded (width * (k / 2 ^ 53)) ≤ width - 2 ^ (gridExponent width - 1) := by
  have hwidth : 0 ≤ width := by
    rw [hn]
    positivity
  have hlast : (k / 2 ^ 53 : ℚ) ≤ 1 - 1 / 2 ^ 53 := by
    rw [le_sub_iff_add_le, ← add_div, div_le_one (by positivity)]
    exact_mod_cast hk
  have hnonneg : 0 ≤ width * (k / 2 ^ 53) := by positivity
  have hshare : width * (k / 2 ^ 53) ≤ width * (1 - 1 / 2 ^ 53) := by gcongr
  rcases hbits.eq_or_lt with hpower | hlt
  · -- half a step below a power of two stands another number
    refine .inr ⟨hpower.symm, ?_⟩
    have hhalf : width / 2 ^ 53 = 2 ^ (gridExponent width - 1) := by
      rw [zpow_sub_one₀ (by norm_num)]
      nth_rewrite 1 [hn]
      rw [← hpower]
      norm_num
      ring
    have hpoint : width * (1 - 1 / 2 ^ 53) = (2 ^ 53 - 1 : ℕ) * 2 ^ (gridExponent width - 1) := by
      rw [← hhalf]
      norm_num
      ring
    refine (rounded_le_of_le hnonneg (by omega) (by norm_num)
      (hshare.trans_eq hpoint)).trans_eq ?_
    rw [← hpoint, ← hhalf]
    ring
  · left
    have hstep : width - 2 ^ gridExponent width = n * 2 ^ gridExponent width := by
      rw [sub_eq_iff_eq_add, ← add_one_mul, ← Nat.cast_add_one]
      exact hn
    rw [hstep]
    rcases hnonneg.eq_or_lt with hzero | hpos
    · rw [← hzero, rounded_zero]
      positivity
    have hwhole : width * (k / 2 ^ 53) ≤ width := hshare.trans (by linarith)
    refine rounded_le_of_lt_half hnonneg (gridExponent_mono hpos hwhole) (by omega)
      (hshare.trans_lt ?_)
    have hlt' : (2 ^ 52 : ℚ) < n + 1 := by exact_mod_cast hlt
    calc width * (1 - 1 / 2 ^ 53) = (n + 1 : ℚ) * (1 - 1 / 2 ^ 53) * 2 ^ gridExponent width := by
          rw [mul_right_comm (n + 1 : ℚ), ← Nat.cast_add_one, ← hn]
      _ < (n + 1 / 2 : ℚ) * 2 ^ gridExponent width := by
        gcongr
        linarith

/-- **The sum of a lower end that is not above zero and a share stays below the upper end**, if the
width is not rounded and is not among the least numbers.

**Proof sketch.** The share is at least one step of the grid of the width below the width, and the
grid of the upper end is not coarser. So the sum is not above the number before the upper end. If
the width is a power of two, the share may be only half a step below it; but then the upper end has
a finer grid, or it is the width itself. -/
theorem rounded_sum_lt {width top : ℚ} {k : ℕ} (hwidth : rounded width = width)
    (hcoarse : -1074 < gridExponent width) (htop : 0 < top) (hself : rounded top = top)
    (hle : top ≤ width) (hk : k < 2 ^ 53)
    (hsum : 0 ≤ top - width + rounded (width * (k / 2 ^ 53))) :
    rounded (top - width + rounded (width * (k / 2 ^ 53))) < top := by
  have hgrid := gridExponent_mono htop hle
  obtain ⟨n, hn, -, hbits⟩ := exists_units (htop.trans_le hle) hwidth
  obtain ⟨m, hm, hm', hbits'⟩ := exists_units htop hself
  have hbelow {g : ℤ} (hg : gridExponent top ≤ g)
      (h : rounded (width * (k / 2 ^ 53)) ≤ width - 2 ^ g) :
      rounded (top - width + rounded (width * (k / 2 ^ 53))) < top := by
    have hfine : (2 ^ gridExponent top : ℚ) ≤ 2 ^ g := zpow_le_zpow_right₀ (by norm_num) hg
    have hstep : (m * 2 ^ gridExponent top : ℚ) = top - 2 ^ gridExponent top := by
      rw [eq_sub_iff_add_eq, ← add_one_mul, ← Nat.cast_add_one]
      exact hm.symm
    refine (rounded_le_of_le hsum (le_gridExponent top) (n := m) (by omega) ?_).trans_lt ?_
    · linarith
    · rw [hstep]
      exact sub_lt_self _ (by positivity)
  rcases rounded_share_le_sub hn hcoarse (hbits hcoarse) hk with hshare | ⟨hpower, hshare⟩
  · exact hbelow hgrid hshare
  rcases hgrid.lt_or_eq with hfiner | hsame
  · exact hbelow (by omega) hshare
  · have hequal : top = width := by
      refine hle.antisymm ?_
      rw [hn, hm, hsame, hpower]
      gcongr
      exact hbits' (hsame ▸ hcoarse)
    rw [hequal, sub_self, zero_add,
      rounded_rounded (mul_nonneg (htop.le.trans hle) (by positivity))]
    exact hshare.trans_lt (sub_lt_self _ (by positivity))

/-! ## Constants -/

/-- The range starts at zero or below and ends above, and its width needs no rounding and has all
its bits. -/
def Problem.SpansZero (p : Problem) : Prop :=
  ∃ (s₁ s₂ : Sign) (y₁ y₂ : ℚ), IsNumber p.minRandom s₁ y₁ ∧ IsNumber p.maxRandom s₂ y₂ ∧
    signed s₁ y₁ ≤ 0 ∧ 0 < signed s₂ y₂ ∧ 2 ^ (-1021 : ℤ) ≤ signed s₂ y₂ - signed s₁ y₁ ∧
    rounded (signed s₂ y₂ - signed s₁ y₁) = signed s₂ y₂ - signed s₁ y₁

/-- A number above zero has a positive sign. -/
lemma eq_positive_of_pos (hx : 0 ≤ x) (h : 0 < signed s x) : s = .positive := by
  cases s with
  | positive => rfl
  | negative =>
    rw [signed] at h
    linarith

/-- What is not above zero is not rounded above it. -/
lemma signed_rounded_nonpos (hsign : signed s |x| = x) (h : x ≤ 0) :
    signed s (rounded |x|) ≤ 0 := by
  cases s with
  | positive =>
    have hzero : |x| = 0 := le_antisymm (hsign.trans_le h) (abs_nonneg x)
    rw [hzero, rounded_zero, signed_zero]
  | negative => exact neg_nonpos.mpr (rounded_nonneg |x|)

namespace Problem

/-- **Constants lie between the ends of the range.** -/
theorem Runnable.constantOf_mem {p : Problem} (h : p.Runnable) (w : UInt64) :
    p.minRandom ≤ p.constantOf w ∧ p.constantOf w ≤ p.maxRandom := by
  obtain ⟨s₁, y₁, hmin, -⟩ := exists_isNumber h.isFinite_minRandom
  obtain ⟨s₂, y₂, hmax, -⟩ := exists_isNumber h.isFinite_maxRandom
  obtain ⟨s, x, hlo, hhi, hsign, hnearest⟩ := h.constantOf_between w hmin hmax
  have hnumber := hnearest.isNumber (hnearest.isFinite_iff.mp (h.isFinite_constantOf w))
  exact ⟨(hmin.le_iff hnumber).mpr (hmin.le_nearest hsign hlo),
    (hnumber.le_iff hmax).mpr (hmax.nearest_le hsign hhi)⟩

/-- **A range that spans zero is half open**: its upper end is never drawn. -/
theorem Runnable.constantOf_lt {p : Problem} (hrun : p.Runnable) (h : p.SpansZero) (w : UInt64) :
    p.constantOf w < p.maxRandom := by
  obtain ⟨s₁, s₂, y₁, y₂, hmin, hmax, hlow, hhigh, hgreat, hexact⟩ := h
  generalize hwidth : signed s₂ y₂ - signed s₁ y₁ = width at hgreat hexact
  have hpos : 0 < width := lt_of_lt_of_le (by positivity) hgreat
  -- the width is computed as it is
  obtain ⟨s, hsign, hdifference⟩ := hmax.sub hmin
  rw [hwidth] at hsign hdifference
  obtain rfl := eq_positive_of_pos (abs_nonneg width) (hpos.trans_eq hsign.symm)
  rw [abs_of_pos hpos] at hdifference
  have hfinite := hdifference.isFinite_iff.mp hrun.isFinite_width
  have hnumber := hdifference.isNumber hfinite
  rw [hexact] at hfinite hnumber
  obtain ⟨k, hk, hunit⟩ := isNumber_unitOfWord w
  have hless := rounded_share_le_rounded hpos.le hk
  rw [hexact] at hless
  have hshare := (hnumber.mul hunit).isNumber (hless.trans_lt hfinite)
  obtain ⟨s', hsign', hsum⟩ := hmin.add hshare
  have hcoarse : -1073 ≤ gridExponent width := by
    refine le_gridExponent_of_le (hgreat.trans_eq' ?_)
    rw [← zpow_natCast, ← zpow_add₀ (by norm_num)]
    norm_num
  have hconstant := hsum.isNumber (hsum.isFinite_iff.mp (hrun.isFinite_constantOf w))
  refine (hconstant.lt_iff hmax).mpr ?_
  change signed s' |signed s₁ y₁ + rounded (width * (k / 2 ^ 53))| = _ at hsign'
  show signed s' (rounded |signed s₁ y₁ + rounded (width * (k / 2 ^ 53))|) < signed s₂ y₂
  rcases le_or_gt (signed s₁ y₁ + rounded (width * (k / 2 ^ 53))) 0 with hnonpos | hsome
  · exact (signed_rounded_nonpos hsign' hnonpos).trans_lt hhigh
  · obtain rfl := eq_positive_of_pos (abs_nonneg _) (hsome.trans_eq hsign'.symm)
    obtain rfl := eq_positive_of_pos hmax.nonneg hhigh
    replace hwidth : y₂ - signed s₁ y₁ = width := hwidth
    have hlower : signed s₁ y₁ = y₂ - width := by linarith
    rw [abs_of_pos hsome, hlower]
    rw [hlower] at hsome
    exact rounded_sum_lt hexact (by omega) hhigh hmax.rounded_eq (by linarith) hk hsome.le

end Problem

/-! ## Tables of constants -/

section Tables

variable {σ : Type}

/-- A computation that takes one word for each item of a list needs no more words than items. -/
lemma Draw.exists_mapM {α β : Type} {f : α → Draw σ β} {l : List α}
    (h : ∀ a ∈ l, ∀ supply : Supply σ, 0 < supply.left →
      ∃ b supply', (f a).run supply = .ok (b, supply') ∧ supply.left = supply'.left + 1)
    (supply : Supply σ) (hleft : l.length ≤ supply.left) :
    ∃ bs supply', (l.mapM f).run supply = .ok (bs, supply') := by
  induction l generalizing supply with
  | nil => exact ⟨[], supply, rfl⟩
  | cons a l ih =>
    rw [List.length_cons] at hleft
    obtain ⟨b, supply₁, hb, hone⟩ := h a (List.mem_cons_self ..) supply (by omega)
    obtain ⟨bs, supply₂, hbs⟩ :=
      ih (fun a' ha' => h a' (List.mem_cons_of_mem _ ha')) supply₁ (by omega)
    refine ⟨b :: bs, supply₂, ?_⟩
    rw [List.mapM_cons, StateT.run_bind, hb]
    show ((l.mapM f) >>= fun bs => pure (b :: bs)).run supply₁ = _
    rw [StateT.run_bind, hbs]
    rfl

variable [WordSource σ]

/-- A constant takes one word. -/
lemma Problem.exists_drawConstant (p : Problem) (supply : Supply σ) (hleft : 0 < supply.left) :
    ∃ c supply', (p.drawConstant : Draw σ Float).run supply = .ok (c, supply') ∧
      supply.left = supply'.left + 1 := by
  obtain ⟨source, left⟩ := supply
  obtain ⟨left, rfl⟩ := Nat.exists_eq_add_one.mpr hleft
  exact ⟨_, ⟨_, left⟩, rfl, rfl⟩

namespace Bindings

/-- **The constants of a run lie in the range of the problem**: a table can be sampled from as many
words as there are constants, and each of its constants is finite and lies between the ends of the
range. The upper end itself is not among them if the range spans zero. -/
theorem sampled_between {text : String} {p : Problem} (hread : Problem.read text = .ok p)
    (supply : Supply σ) (hleft : p.constCount ≤ supply.left) :
    ∃ b supply', (sample p : Draw σ Bindings).run supply = .ok (b, supply') ∧
      b.varCount = p.varCount ∧ b.constants.size = p.constCount ∧
      ∀ c ∈ b.constants, c.isFinite = true ∧ p.minRandom ≤ c ∧ c ≤ p.maxRandom ∧
        (p.SpansZero → c < p.maxRandom) := by
  have hrun := Problem.runnable_of_read hread
  have hle := hrun.terminalCount_le
  have hlimit : 8 * 110 ≤ Storage.limit := by decide
  obtain ⟨constants, supply', hdraws⟩ := Draw.exists_mapM
    (fun q _ supply hleft => q.exists_drawConstant supply hleft)
    (l := List.replicate p.constCount p) supply (by rwa [List.length_replicate])
  have hsample : (sample p : Draw σ Bindings).run supply =
      .ok (ofConstants p.varCount constants, supply') := by
    have hcount : p.countTerminals = .ok p.terminalCount := if_pos (lt_of_le_of_lt hle (by decide))
    have hroom : Storage.reserve 8 p.terminalCount = .ok () := if_pos (by omega)
    rw [sample, hcount, StateT.run_bind, bind_eq_ok_iff]
    refine ⟨(p.terminalCount, supply), rfl, ?_⟩
    rw [hroom, StateT.run_bind, bind_eq_ok_iff]
    refine ⟨((), supply), rfl, ?_⟩
    rw [StateT.run_bind, bind_eq_ok_iff]
    exact ⟨(constants, supply'), hdraws, rfl⟩
  obtain ⟨hvarCount, hsize, hwords⟩ := of_sample hsample
  refine ⟨_, supply', hsample, hvarCount, ?_, fun c hc => ?_⟩
  · rw [Bindings.constants, Array.size_extract, hsize, hvarCount, Problem.terminalCount]
    omega
  · obtain ⟨w, rfl⟩ := hwords c hc
    obtain ⟨hlo, hhi⟩ := hrun.constantOf_mem w
    exact ⟨hrun.isFinite_constantOf w, hlo, hhi, fun h => hrun.constantOf_lt h w⟩

set_option maxRecDepth 10000 in
/-- A constant of a range that spans zero stays below its upper end. -/
theorem sampled_between_sample : ∃ p b supply', Problem.read "0 1 -1 1 1\n0\n" = .ok p ∧
    p.SpansZero ∧ (sample p).run (.ofSource (Xoshiro.ofSeed 1)) = .ok (b, supply') ∧
    b.constants.size = 1 ∧ ∀ c ∈ b.constants, p.minRandom ≤ c ∧ c < p.maxRandom := by
  have hread : Problem.read "0 1 -1 1 1\n0\n" = .ok ⟨0, 1, -1.0, 1.0, [⟨#[], 0.0⟩]⟩ := by rfl
  have hone : IsNumber 1.0 .positive 1 :=
    isNumber_ofScientific (by norm_num) (@rounded_two_zpow 0 (by norm_num))
      (one_lt_pow₀ (by norm_num) (by norm_num))
  have hspans : Problem.SpansZero ⟨0, 1, -1.0, 1.0, [⟨#[], 0.0⟩]⟩ := by
    refine ⟨_, _, 1, 1, hone.neg, hone, ?_⟩
    show (-1 : ℚ) ≤ 0 ∧ (0 : ℚ) < 1 ∧ (2 ^ (-1021 : ℤ) : ℚ) ≤ 1 - -1 ∧ rounded (1 - -1) = 1 - -1
    have htwo : (1 - -1 : ℚ) = 2 ^ (1 : ℤ) := by norm_num
    rw [htwo]
    exact ⟨by norm_num, one_pos, zpow_le_zpow_right₀ (by norm_num) (by norm_num),
      rounded_two_zpow (by norm_num)⟩
  obtain ⟨b, supply', hsample, -, hsize, hconstants⟩ :=
    sampled_between hread (.ofSource (Xoshiro.ofSeed 1)) (by decide)
  exact ⟨_, b, supply', hread, hspans, hsample, hsize, fun c hc =>
    ⟨(hconstants c hc).2.1, (hconstants c hc).2.2.2 hspans⟩⟩

set_option maxRecDepth 10000 in
/-- **The upper end of a range can be drawn**: in a range of one step, what is more than half of the
step is rounded up to all of it. -/
theorem sampled_upper_end : ∃ p b supply',
    Problem.read "1 1 1 1.0000000000000002 1\n0 0\n" = .ok p ∧ p.minRandom < p.maxRandom ∧
      (sample p).run (.ofSource (Xoshiro.ofSeed 1)) = .ok (b, supply') ∧
      ∃ c ∈ b.constants, ¬ c < p.maxRandom :=
  ⟨⟨1, 1, 1.0, 1.0000000000000002, [⟨#[0.0], 0.0⟩]⟩,
    ⟨#[0.0, 1.0000000000000002], 1, by decide⟩, _, by rfl, by decide +kernel, by rfl,
    1.0000000000000002, by simp [constants], by decide +kernel⟩

end Bindings

end Tables

end SymbolicRegression
