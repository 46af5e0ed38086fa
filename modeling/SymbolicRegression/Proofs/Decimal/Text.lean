import SymbolicRegression.Proofs.Decimal.Bits
import SymbolicRegression.Proofs.Decimal.Numerals

set_option autoImplicit false
set_option relaxedAutoImplicit false

/-!
# Numbers are read back from their text

A finite number that is written out for people to read is a minus sign or nothing, digits, and
perhaps a point with more digits. Read as a literal, it has the value of the shortest decimal of
the number, and so it stands for the number itself.

## Main definitions

* `SymbolicRegression.Decimal.Spells` — the text of a decimal without sign.

## Main results

* `SymbolicRegression.Decimal.Numeral.WellFormed.spells` — numerals without an exponent.
* `SymbolicRegression.Decimal.exists_numeral_magnitudeText` — the numeral of a number.
* `SymbolicRegression.Decimal.readFinite_render` — finite numbers are read back.
* `SymbolicRegression.Decimal.newline_notMem_render` — the text of a number is a single line.
-/

namespace SymbolicRegression.Decimal

open Float.Model.UnpackedFloat

/-! ## Texts without sign -/

/-- The characters are digits with so many places after the point, if there are any, and the digits
have this value. -/
structure Spells (cs : List Char) (coefficient places : ℕ) : Prop where
  /-- The digits before the point and those after it. -/
  exists_digits : ∃ whole fraction : List Char, whole ≠ [] ∧
    (∀ c ∈ whole, c.isDigit = true) ∧ (∀ c ∈ fraction, c.isDigit = true) ∧
    digitsValue (whole ++ fraction) = coefficient ∧ fraction.length = places ∧
    cs = whole ++ if fraction = [] then [] else '.' :: fraction

namespace Spells

variable {cs : List Char} {coefficient places : ℕ}

/-- The text is made of digits and points. -/
lemma isDigit_or_eq (h : Spells cs coefficient places) {c : Char} (hc : c ∈ cs) :
    c.isDigit = true ∨ c = '.' := by
  obtain ⟨whole, fraction, -, hwhole, hfraction, -, -, rfl⟩ := h.exists_digits
  rcases List.mem_append.mp hc with hc | hc
  · exact .inl (hwhole c hc)
  · split at hc
    · simp at hc
    · rcases List.mem_cons.mp hc with rfl | hc
      · exact .inr rfl
      · exact .inl (hfraction c hc)

/-- The text starts with a digit. -/
lemma exists_head (h : Spells cs coefficient places) :
    ∃ c rest, c.isDigit = true ∧ cs = c :: rest := by
  obtain ⟨whole, fraction, hne, hwhole, -, -, -, rfl⟩ := h.exists_digits
  obtain ⟨c, rest, rfl⟩ := List.exists_cons_of_ne_nil hne
  exact ⟨c, _, hwhole c List.mem_cons_self, List.cons_append ..⟩

/-- **The text is read as the decimal that it spells**, with or without a minus sign. -/
theorem read?_eq (h : Spells cs coefficient places) (negative : Bool) :
    Literal.read? (if negative then '-' :: cs else cs) =
      some ⟨negative, coefficient, -places⟩ := by
  obtain ⟨whole, fraction, hne, hwhole, hfraction, rfl, rfl, rfl⟩ := h.exists_digits
  have hnumeral : Numeral.WellFormed ⟨whole, fraction, none⟩ := ⟨hne, hwhole, hfraction, nofun⟩
  have hread := hnumeral.read?_eq negative
  simpa [Numeral.chars, Numeral.exponentChars, Numeral.literal, Numeral.exponentValue] using hread

end Spells

/-- A numeral without an exponent spells the decimal that it is read as. -/
theorem Numeral.WellFormed.spells {n : Numeral} (h : n.WellFormed) (hexponent : n.exponent = none) :
    Spells n.chars (digitsValue (n.whole ++ n.fraction)) n.fraction.length := by
  refine ⟨n.whole, n.fraction, h.whole_ne_nil, h.isDigit_whole, h.isDigit_fraction, rfl, rfl, ?_⟩
  rw [chars, hexponent, exponentChars, List.append_nil]

/-! ## Numbers -/

/-- **The magnitude of a number is written as a numeral** that is rounded to it. The numeral has a
fraction or an exponent if whole numbers are given a fraction. -/
theorem exists_numeral_magnitudeText (style : Style)
    (hending : style.wholeEnding = "" ∨ style.wholeEnding = ".0") {x : Float} {s : Sign} {y : ℚ}
    (h : IsNumber x s y) : ∃ n : Numeral, n.Strict ∧
      (style.magnitudeText (.ofBits x.toBits)).toList = n.chars ∧
      rounded (n.literal false).value = y ∧
      (style.wholeEnding ≠ "" → n.fraction ≠ [] ∨ n.exponent ≠ none) ∧
      ((∀ e, style.positional e = true) → n.exponent = none) := by
  obtain ⟨hvalue, hregular⟩ := Dyadic.ofBits_spec h
  unfold Style.magnitudeText
  split
  · rename_i hzero
    have hy : y = 0 := by rw [← hvalue, Dyadic.value, hzero, Nat.cast_zero, zero_mul]
    have hstrict (fraction : List Char) (hfraction : ∀ c ∈ fraction, c.isDigit = true) :
        Numeral.Strict ⟨['0'], fraction, none⟩ :=
      ⟨⟨by simp, by simp, hfraction, by simp⟩, fun _ => rfl⟩
    rcases hending with hending | hending
    · refine ⟨_, hstrict [] (by simp), by rw [hending]; rfl, ?_, by simp [hending],
        fun _ => rfl⟩
      simp [Numeral.literal, Literal.value, digitsValue, hy]
    · refine ⟨_, hstrict ['0'] (by simp), by rw [hending]; rfl, ?_, by simp,
        fun _ => rfl⟩
      simp [Numeral.literal, Literal.value, digitsValue, hy]
  · rename_i hne
    have hcoefficient := (hregular hne).coefficient_shortest_ne style.tie
    have hrounded := (hregular hne).rounded_shortest style.tie
    rw [hvalue] at hrounded
    unfold Style.decimalText
    dsimp only
    split
    · obtain ⟨n, hstrict, hexponent, hchars, heq, hfraction⟩ :=
        exists_numeral_positionalText hending hcoefficient
      exact ⟨n, hstrict, hchars, (congrArg rounded heq).trans hrounded,
        fun hsome => .inl (hfraction hsome), fun _ => hexponent⟩
    · rename_i hlead
      obtain ⟨n, hstrict, hexponent, hchars, heq⟩ := exists_numeral_exponentText hcoefficient
      exact ⟨n, hstrict, hchars, (congrArg rounded heq).trans hrounded,
        fun _ => .inr (Option.isSome_iff_ne_none.mp hexponent), fun hall => absurd (hall _) hlead⟩

/-- **The magnitude of a number is spelled by a decimal that is rounded to it.** -/
theorem exists_spells {x : Float} {s : Sign} {y : ℚ} (h : IsNumber x s y) :
    ∃ coefficient places : ℕ,
      Spells (plain.magnitudeText (.ofBits x.toBits)).toList coefficient places ∧
        rounded (coefficient * 10 ^ (-places : ℤ)) = y := by
  obtain ⟨n, hstrict, hchars, hrounded, -, hexponent⟩ :=
    exists_numeral_magnitudeText plain (.inl rfl) h
  have hnone := hexponent fun _ => rfl
  refine ⟨_, _, hchars ▸ hstrict.spells hnone, ?_⟩
  rwa [Literal.value, Numeral.literal, hnone, Numeral.exponentValue, zero_sub] at hrounded

/-- The text of a finite number: a minus sign if the upper bit is set, and its magnitude. -/
lemma toList_render (style : Style) {x : Float} (h : x.isFinite = true) :
    (style.render x).toList = if decide (x.toBits >>> 63 = 1) then
      '-' :: (style.magnitudeText (.ofBits x.toBits)).toList
    else (style.magnitudeText (.ofBits x.toBits)).toList := by
  unfold Style.render
  dsimp only
  rw [if_neg (by rw [isNaN_of_isFinite h]; exact Bool.false_ne_true), if_pos h]
  split
  · rw [String.toList_append]
    rfl
  · rw [String.empty_append]

/-- The text of a count is a single line. -/
lemma newline_notMem_repr (n : ℕ) : '\n' ∉ (Nat.repr n).toList := by
  rw [Nat.toList_repr]
  exact fun h => absurd (Numeral.isDigit_toDigits n _ h) (by decide)

/-- **The text of a number is a single line**, if the names of what is not finite are. -/
theorem newline_notMem_render (style : Style)
    (hending : style.wholeEnding = "" ∨ style.wholeEnding = ".0") (hnan : '\n' ∉ style.nan.toList)
    (hinfinity : '\n' ∉ style.infinity.toList) (hnegInfinity : '\n' ∉ style.negInfinity.toList)
    (x : Float) : '\n' ∉ (style.render x).toList := by
  cases hx : x.isFinite with
  | false =>
    unfold Style.render
    dsimp only
    rw [hx, if_neg Bool.false_ne_true]
    split
    · exact hnan
    · split
      · exact hnegInfinity
      · exact hinfinity
  | true =>
    obtain ⟨s, y, hnumber, -⟩ := exists_isNumber hx
    obtain ⟨n, hstrict, hchars, -⟩ := exists_numeral_magnitudeText style hending hnumber
    have hnot : '\n' ∉ n.chars := fun hc => by
      rcases hstrict.isDigit_or_mem hc with h | h
      · cases h
      · revert h
        decide
    rw [toList_render style hx, hchars]
    split
    · exact List.not_mem_cons_of_ne_of_not_mem (by decide) hnot
    · exact hnot

/-- **A literal with the sign and the magnitude of a number is read as the number.**

**Proof sketch.** The number of the literal is nearest to its value, which is rounded to the
magnitude of the number; and there is only one number with this magnitude and this sign. -/
theorem readFinite_of_read?_eq {x : Float} {s : Sign} {y : ℚ} (hnumber : IsNumber x s y)
    (hlt : y < 2 ^ 1024) {token : List Char} {l : Literal} (hread : Literal.read? token = some l)
    (hnegative : l.negative = decide (x.toBits >>> 63 = 1)) (hvalue : rounded l.value = y) :
    readFinite token = some x := by
  have hsign : l.sign = s := by
    rw [Literal.sign, hnegative]
    cases s with
    | negative => rw [if_pos (decide_eq_true ((signBit_iff hnumber).mpr rfl))]
    | positive =>
      rw [if_neg]
      intro hbit
      cases (signBit_iff hnumber).mp (of_decide_eq_true hbit)
  have hnearest := l.isNearest_toFloat.isNumber (by rwa [hvalue])
  rw [hvalue, hsign] at hnearest
  have heq : l.toFloat = x := hnearest.unique hnumber
  simp only [readFinite, hread, Option.bind_eq_bind, Option.bind_some, heq,
    if_pos hnumber.isFinite]

/-- **Finite numbers are read back from their text**: the text is read as a literal with the sign
of the number, and it spells a decimal that is rounded to the magnitude of the number. -/
theorem readFinite_render {x : Float} (h : x.isFinite = true) :
    readFinite (plain.render x).toList = some x := by
  obtain ⟨s, y, hnumber, hlt⟩ := exists_isNumber h
  obtain ⟨coefficient, places, hspells, hrounded⟩ := exists_spells hnumber
  have hread := hspells.read?_eq (decide (x.toBits >>> 63 = 1))
  rw [← toList_render plain h] at hread
  exact readFinite_of_read?_eq hnumber hlt hread rfl hrounded

end SymbolicRegression.Decimal
