import Mathlib.Data.List.TakeWhile
import SymbolicRegression.Decimal.Text
import SymbolicRegression.Proofs.Decimal.Digits
import SymbolicRegression.Proofs.Decimal.Shortest
import SymbolicRegression.Proofs.Decimal.Literal

set_option autoImplicit false
set_option relaxedAutoImplicit false

/-!
# Numerals

A decimal that is written out is digits, perhaps a point with more digits, and perhaps a signed
exponent. It is read as the literal with these digits and this exponent, and it has the value of the
decimal that it is written for.

## Main definitions

* `SymbolicRegression.Decimal.Numeral` — the parts of a decimal as written.
* `SymbolicRegression.Decimal.Numeral.Strict` — parts that are written without needless zeros.

## Main results

* `SymbolicRegression.Decimal.Numeral.read?_eq` — a numeral is read as its literal.
* `SymbolicRegression.Decimal.exists_numeral_positionalText`,
  `SymbolicRegression.Decimal.exists_numeral_exponentText` — decimals are written as numerals.
-/

namespace SymbolicRegression.Decimal

/-- The parts of a decimal as written, without a sign before it. -/
structure Numeral where
  /-- The digits before the point. -/
  whole : List Char
  /-- The digits after the point. Without any there is no point. -/
  fraction : List Char
  /-- The exponent, if there is one: whether it is negative, and its digits. -/
  exponent : Option (Bool × List Char)

namespace Numeral

/-- The characters of an exponent. -/
def exponentChars : Option (Bool × List Char) → List Char
  | none => []
  | some (negative, digits) => 'e' :: (if negative then '-' else '+') :: digits

/-- The value of an exponent. -/
def exponentValue : Option (Bool × List Char) → ℤ
  | none => 0
  | some (negative, digits) => if negative then -(digitsValue digits : ℤ) else digitsValue digits

/-- The characters of a numeral. -/
def chars (n : Numeral) : List Char :=
  n.whole ++ (if n.fraction = [] then [] else '.' :: n.fraction) ++ exponentChars n.exponent

/-- The literal that a numeral is read as, with its sign. -/
def literal (n : Numeral) (negative : Bool) : Literal :=
  ⟨negative, digitsValue (n.whole ++ n.fraction), exponentValue n.exponent - n.fraction.length⟩

/-- What is written are digits, and there are some before the point and in an exponent. -/
structure WellFormed (n : Numeral) : Prop where
  /-- There are digits before the point. -/
  whole_ne_nil : n.whole ≠ []
  /-- Before the point are digits. -/
  isDigit_whole : ∀ c ∈ n.whole, c.isDigit = true
  /-- After the point are digits. -/
  isDigit_fraction : ∀ c ∈ n.fraction, c.isDigit = true
  /-- The exponent has digits. -/
  exponent_digits : ∀ negative digits, n.exponent = some (negative, digits) →
    digits ≠ [] ∧ ∀ c ∈ digits, c.isDigit = true

/-- A numeral that starts with a zero only if that is all before the point. -/
structure Strict (n : Numeral) : Prop extends n.WellFormed where
  /-- No digit stands between a first zero and the point. -/
  eq_of_head : n.whole.head? = some '0' → n.whole = ['0']

variable {n : Numeral}

/-- A numeral is made of digits, points, marks and signs. -/
lemma WellFormed.isDigit_or_mem (h : n.WellFormed) {c : Char} (hc : c ∈ n.chars) :
    c.isDigit = true ∨ c ∈ ['.', 'e', '+', '-'] := by
  obtain ⟨whole, fraction, exponent⟩ := n
  simp only [chars, List.mem_append] at hc
  rcases hc with (hc | hc) | hc
  · exact .inl (h.isDigit_whole c hc)
  · split at hc
    · simp at hc
    · rcases List.mem_cons.mp hc with rfl | hc
      · exact .inr (by simp)
      · exact .inl (h.isDigit_fraction c hc)
  · cases exponent with
    | none => simp [exponentChars] at hc
    | some e =>
      obtain ⟨negative, digits⟩ := e
      simp only [exponentChars, List.mem_cons] at hc
      rcases hc with rfl | rfl | hc
      · exact .inr (by simp)
      · exact .inr (by cases negative <;> simp)
      · exact .inl ((h.exponent_digits negative digits rfl).2 c hc)

/-- A numeral with a fraction or an exponent is not made of digits alone. -/
lemma exists_not_isDigit (h : n.fraction ≠ [] ∨ n.exponent ≠ none) :
    ∃ c ∈ n.chars, c.isDigit = false := by
  rcases h with h | h
  · exact ⟨'.', by simp [chars, h], rfl⟩
  · obtain ⟨e, he⟩ := Option.ne_none_iff_exists'.mp h
    exact ⟨'e', by simp [chars, he, exponentChars], rfl⟩

/-- A numeral starts with a digit. -/
lemma WellFormed.exists_head (h : n.WellFormed) :
    ∃ c rest, c.isDigit = true ∧ n.chars = c :: rest := by
  obtain ⟨c, rest, hwhole⟩ := List.exists_cons_of_ne_nil h.whole_ne_nil
  have hhead : n.chars = c :: (rest ++ (if n.fraction = [] then [] else '.' :: n.fraction) ++
      exponentChars n.exponent) := by
    rw [chars, hwhole, List.cons_append, List.cons_append]
  exact ⟨c, _, h.isDigit_whole c (hwhole ▸ List.mem_cons_self), hhead⟩

/-- The exponent of a numeral is read. -/
lemma WellFormed.readExponent_eq (h : n.WellFormed) :
    Literal.readExponent (exponentChars n.exponent) = some (exponentValue n.exponent) := by
  obtain ⟨whole, fraction, exponent⟩ := n
  cases exponent with
  | none => rfl
  | some e =>
    obtain ⟨negative, digits⟩ := e
    obtain ⟨hne, hdigits⟩ := h.exponent_digits negative digits rfl
    have hall : digits.all Char.isDigit = true := List.all_eq_true.mpr hdigits
    cases negative <;>
      simp [exponentChars, Literal.readExponent, splitSign, hne, hall, exponentValue]

/-- What follows the digits of a numeral does not start with a digit. -/
lemma head?_exponentChars (exponent : Option (Bool × List Char)) :
    ∀ c ∈ (exponentChars exponent).head?, c.isDigit = false ∧ c ≠ '.' := by
  intro c hc
  cases exponent with
  | none => simp [exponentChars] at hc
  | some e =>
    obtain rfl : 'e' = c := by simpa [exponentChars] using hc
    decide

/-- Digits before anything else are taken and dropped as a whole. -/
lemma takeWhile_isDigit_append {digits rest : List Char} (h : ∀ c ∈ digits, c.isDigit = true)
    (hrest : ∀ c ∈ rest.head?, c.isDigit = false) :
    (digits ++ rest).takeWhile Char.isDigit = digits ∧
      (digits ++ rest).dropWhile Char.isDigit = rest := by
  rw [List.takeWhile_append_of_pos h, List.dropWhile_append_of_pos h]
  cases rest with
  | nil => simp
  | cons c rest =>
    have hc := hrest c (by simp)
    simp [hc]

/-- **A numeral is read as its literal**, with or without a minus sign. -/
theorem WellFormed.read?_eq (h : n.WellFormed) (negative : Bool) :
    Literal.read? (if negative then '-' :: n.chars else n.chars) = some (n.literal negative) := by
  have hsign : splitSign (if negative then '-' :: n.chars else n.chars) = (negative, n.chars) := by
    obtain ⟨c, rest, hc, hchars⟩ := h.exists_head
    rw [hchars]
    cases negative with
    | true => rfl
    | false =>
      rw [if_neg Bool.false_ne_true]
      unfold splitSign
      split
      · simp_all
      · simp_all
      · rfl
  have hexponent := h.readExponent_eq
  have hstops := head?_exponentChars n.exponent
  unfold Literal.read?
  rw [hsign]
  dsimp only
  by_cases hempty : n.fraction = []
  · have hchars : n.chars = n.whole ++ exponentChars n.exponent := by simp [chars, hempty]
    obtain ⟨htake, hdrop⟩ := takeWhile_isDigit_append h.isDigit_whole fun c hc => (hstops c hc).1
    rw [hchars, htake, hdrop]
    rw [literal]
    cases hexp : n.exponent with
    | none => simp [exponentChars, h.whole_ne_nil, hempty, Literal.readExponent, exponentValue]
    | some e =>
      rw [hexp] at hexponent
      simp only [exponentChars] at hexponent ⊢
      simp [h.whole_ne_nil, hexponent, hempty]
  · have hchars : n.chars = n.whole ++ '.' :: (n.fraction ++ exponentChars n.exponent) := by
      simp [chars, hempty]
    have hpoint : ∀ c ∈ ('.' :: (n.fraction ++ exponentChars n.exponent)).head?,
        c.isDigit = false := by simp
    obtain ⟨htake, hdrop⟩ := takeWhile_isDigit_append h.isDigit_whole hpoint
    obtain ⟨htake', hdrop'⟩ :=
      takeWhile_isDigit_append h.isDigit_fraction fun c hc => (hstops c hc).1
    rw [hchars, htake, hdrop]
    simp [h.whole_ne_nil, htake', hdrop', hexponent, literal]

end Numeral

/-! ## Decimals as numerals -/

/-- The first digit of a count is not zero unless the count is. -/
lemma head?_toDigits_ne {c : ℕ} (hc : c ≠ 0) : (Nat.toDigits 10 c).head? ≠ some '0' := by
  induction c using Nat.strong_induction_on with
  | _ c ih =>
    rcases lt_or_ge c 10 with hlt | hge
    · rw [Nat.toDigits_of_lt_base hlt]
      interval_cases c <;> first | exact absurd rfl hc | decide
    · rw [Nat.toDigits_of_base_le (by norm_num) hge,
        List.head?_append_of_ne_nil _ Nat.toDigits_ne_nil]
      exact ih (c / 10) (by omega) (by omega)

/-- The characters of a row of zeros. -/
lemma toList_zeros (n : ℕ) : (zeros n).toList = List.replicate n '0' := String.toList_ofList

/-- A zero of a row of zeros is a digit. -/
lemma isDigit_of_mem_zeros {n : ℕ} {c : Char} (hc : c ∈ List.replicate n '0') :
    c.isDigit = true := by
  rw [List.eq_of_mem_replicate hc]
  rfl

/-- Two rows of digits are one. -/
lemma isDigit_append {front back : List Char} (h : ∀ c ∈ front, c.isDigit = true)
    (h' : ∀ c ∈ back, c.isDigit = true) : ∀ c ∈ front ++ back, c.isDigit = true :=
  fun c hc => (List.mem_append.mp hc).elim (h c) (h' c)

namespace Numeral

/-- The digits of a count. -/
lemma isDigit_toDigits (c : ℕ) : ∀ d ∈ Nat.toDigits 10 c, d.isDigit = true :=
  fun _ => isDigit_of_mem_toDigits

/-- Digits and zeros before the point. -/
lemma strict_whole {c : ℕ} (hc : c ≠ 0) (k : ℕ) (fraction : List Char)
    (hfraction : ∀ d ∈ fraction, d.isDigit = true) :
    Strict ⟨Nat.toDigits 10 c ++ List.replicate k '0', fraction, none⟩ where
  whole_ne_nil := by simp [Nat.toDigits_ne_nil]
  isDigit_whole := isDigit_append (isDigit_toDigits c) fun _ => isDigit_of_mem_zeros
  isDigit_fraction := hfraction
  exponent_digits := nofun
  eq_of_head h := by
    rw [List.head?_append_of_ne_nil _ Nat.toDigits_ne_nil] at h
    exact absurd h (head?_toDigits_ne hc)

/-- A point among digits. -/
lemma strict_inside {c k : ℕ} (hc : c ≠ 0) (hk : 0 < k) :
    Strict ⟨(Nat.toDigits 10 c).take k, (Nat.toDigits 10 c).drop k, none⟩ where
  whole_ne_nil := by
    rw [Ne, List.take_eq_nil_iff, not_or]
    exact ⟨hk.ne', Nat.toDigits_ne_nil⟩
  isDigit_whole := fun d hd => isDigit_toDigits c d (List.mem_of_mem_take hd)
  isDigit_fraction := fun d hd => isDigit_toDigits c d (List.mem_of_mem_drop hd)
  exponent_digits := nofun
  eq_of_head h := by
    rw [List.head?_take, if_neg hk.ne'] at h
    exact absurd h (head?_toDigits_ne hc)

/-- Zeros and digits after the point. -/
lemma strict_below (c k : ℕ) :
    Strict ⟨['0'], List.replicate k '0' ++ Nat.toDigits 10 c, none⟩ where
  whole_ne_nil := by simp
  isDigit_whole := by simp
  isDigit_fraction := isDigit_append (fun _ => isDigit_of_mem_zeros) (isDigit_toDigits c)
  exponent_digits := nofun
  eq_of_head _ := rfl

/-- One digit before the point, and an exponent. -/
lemma strict_scientific {first : Char} {fraction : List Char} {c : ℕ} (hc : c ≠ 0)
    (hdigits : Nat.toDigits 10 c = first :: fraction) (negative : Bool) (lead : ℕ) :
    Strict ⟨[first], fraction, some (negative, Nat.toDigits 10 lead)⟩ where
  whole_ne_nil := by simp
  isDigit_whole d hd := isDigit_toDigits c d (by simp_all)
  isDigit_fraction d hd := isDigit_toDigits c d (by simp_all)
  exponent_digits := by
    rintro negative' digits heq
    obtain ⟨-, rfl⟩ := Prod.mk.inj (Option.some.inj heq)
    exact ⟨Nat.toDigits_ne_nil, isDigit_toDigits lead⟩
  eq_of_head h := by
    have hhead := head?_toDigits_ne hc
    rw [hdigits] at hhead
    exact absurd h hhead

end Numeral

/-- **A decimal without an exponent is written as a numeral**, which has a fraction if whole numbers
are given one. -/
theorem exists_numeral_positionalText {ending : String} (hending : ending = "" ∨ ending = ".0")
    {d : Scaled} (hd : d.coefficient ≠ 0) : ∃ n : Numeral, n.Strict ∧ n.exponent = none ∧
      (positionalText ending d).toList = n.chars ∧ (n.literal false).value = d.value ∧
      (ending ≠ "" → n.fraction ≠ []) := by
  have hzero : digitsValue ['0'] = 0 := rfl
  unfold positionalText
  dsimp only
  split
  · rename_i hnonneg
    obtain ⟨k, hk⟩ := Int.eq_ofNat_of_zero_le hnonneg
    rcases hending with rfl | rfl
    · refine ⟨_, Numeral.strict_whole hd k [] nofun, rfl, ?_, ?_, by simp⟩
      · simp [Nat.toList_repr, toList_zeros, hk, Numeral.chars, Numeral.exponentChars]
      · rw [Numeral.literal, Literal.value, Scaled.value, hk]
        simp [digitsValue_append, digitsValue_toDigits, Numeral.exponentValue, mul_comm]
    · refine ⟨_, Numeral.strict_whole hd k ['0'] (by simp), rfl, ?_, ?_, by simp⟩
      · simp [Nat.toList_repr, toList_zeros, hk, Numeral.chars, Numeral.exponentChars]
      · rw [Numeral.literal, Literal.value, Scaled.value, hk]
        simp only [digitsValue_append, digitsValue_toDigits, digitsValue_replicate_zero,
          hzero, Numeral.exponentValue, List.length_replicate, List.length_singleton]
        push_cast
        rw [zpow_natCast]
        norm_num
        ring
  rename_i hneg
  obtain ⟨k, hk⟩ := Int.eq_ofNat_of_zero_le (show 0 ≤ -d.exponent by omega)
  have hexponent : d.exponent = -k := by omega
  have hpos : 0 < k := by omega
  have hlength : (Nat.repr d.coefficient).length = (Nat.toDigits 10 d.coefficient).length := by
    rw [← String.length_toList, Nat.toList_repr]
  rw [hexponent, neg_neg, Int.toNat_natCast, hlength]
  split
  · rename_i hlt
    refine ⟨_, Numeral.strict_inside hd (Nat.sub_pos_of_lt hlt), rfl, ?_, ?_, ?_⟩
    · have hlong : 0 < (Nat.toDigits 10 d.coefficient).length := by omega
      simp [Nat.toList_repr, Numeral.chars, Numeral.exponentChars, hpos, hlong]
    · rw [Numeral.literal, Literal.value, Scaled.value, hexponent]
      simp only [List.take_append_drop, digitsValue_toDigits, Numeral.exponentValue,
        List.length_drop]
      rw [Nat.sub_sub_self hlt.le, zero_sub]
    · intro _
      rw [Ne, List.drop_eq_nil_iff]
      omega
  · rename_i hge
    refine ⟨_, Numeral.strict_below d.coefficient (k - (Nat.toDigits 10 d.coefficient).length),
      rfl, ?_, ?_, ?_⟩
    · simp [Nat.toList_repr, toList_zeros, Numeral.chars, Numeral.exponentChars,
        Nat.toDigits_ne_nil]
    · rw [Numeral.literal, Literal.value, Scaled.value, hexponent]
      simp only [digitsValue_append, digitsValue_toDigits, digitsValue_replicate_zero, hzero,
        Numeral.exponentValue, List.length_append, List.length_replicate]
      rw [Nat.sub_add_cancel (not_lt.mp hge), zero_sub]
      simp
    · simp [Nat.toDigits_ne_nil]

/-- **A decimal with an exponent is written as a numeral.** -/
theorem exists_numeral_exponentText {d : Scaled} (hd : d.coefficient ≠ 0) : ∃ n : Numeral,
    n.Strict ∧ n.exponent.isSome = true ∧ (exponentText d).toList = n.chars ∧
      (n.literal false).value = d.value := by
  obtain ⟨first, fraction, hdigits⟩ : ∃ first fraction,
      Nat.toDigits 10 d.coefficient = first :: fraction :=
    List.exists_cons_of_ne_nil Nat.toDigits_ne_nil
  have hlength : (Nat.repr d.coefficient).length - 1 = fraction.length := by
    rw [← String.length_toList, Nat.toList_repr, hdigits, List.length_cons, Nat.add_sub_cancel]
  obtain ⟨lead, hlead⟩ : ∃ lead, lead = d.exponent + fraction.length := ⟨_, rfl⟩
  refine ⟨_, Numeral.strict_scientific hd hdigits (decide (lead < 0)) lead.natAbs, rfl, ?_, ?_⟩
  · simp only [exponentText, Nat.toList_repr, hdigits, hlength, ← hlead, String.toList_append]
    have hsign : (if 0 ≤ lead then "e+" else "e-").toList =
        ['e', if decide (lead < 0) then '-' else '+'] := by
      by_cases hneg : lead < 0
      · rw [if_neg (by omega), if_pos (decide_eq_true hneg)]
        rfl
      · rw [if_pos (by omega), if_neg (by simpa using hneg)]
        rfl
    rw [hsign]
    cases fraction with
    | nil => simp [Numeral.chars, Numeral.exponentChars]
    | cons second rest => simp [Numeral.chars, Numeral.exponentChars]
  · rw [Numeral.literal, Literal.value, Scaled.value]
    simp only [List.singleton_append, ← hdigits, digitsValue_toDigits, Numeral.exponentValue]
    congr 2
    by_cases hneg : lead < 0
    · rw [if_pos (decide_eq_true hneg)]
      omega
    · rw [if_neg (by simpa using hneg)]
      omega

end SymbolicRegression.Decimal
