import Mathlib.Algebra.Ring.Nat
import Mathlib.Tactic.Common
import SymbolicRegression.Decimal.Reader

set_option autoImplicit false
set_option relaxedAutoImplicit false

/-!
# Digits

The digits that a count is written with, and the count that digits stand for.

## Main results

* `SymbolicRegression.Decimal.digitsValue_toDigits` — the digits of a count stand for it.
* `SymbolicRegression.Decimal.readCount_toDigits` — a count is read from its digits.
-/

namespace SymbolicRegression.Decimal

/-- The value of digits, with the library's reading of digits. -/
lemma digitsValue_eq (digits : List Char) : digitsValue digits = Nat.ofDigitChars 10 digits 0 := rfl

/-- **The digits of a count stand for it.** -/
theorem digitsValue_toDigits (n : Nat) : digitsValue (Nat.toDigits 10 n) = n :=
  Nat.ofDigitChars_toDigits (by decide) (by decide)

/-- The value of a row of digits: the first ones are worth a power of ten for each that follows. -/
theorem digitsValue_append (front back : List Char) :
    digitsValue (front ++ back) = 10 ^ back.length * digitsValue front + digitsValue back := by
  rw [digitsValue_eq, digitsValue_eq, digitsValue_eq, Nat.ofDigitChars_append,
    Nat.ofDigitChars_eq_ofDigitChars_zero]

/-- Zeros are worth nothing. -/
@[simp] theorem digitsValue_replicate_zero (n : Nat) :
    digitsValue (List.replicate n '0') = 0 := by
  rw [digitsValue_eq, Nat.ofDigitChars_replicate_zero, Nat.mul_zero]

/-- A count is written with digits. -/
theorem isDigit_of_mem_toDigits {n : Nat} {c : Char} (h : c ∈ Nat.toDigits 10 n) :
    c.isDigit = true :=
  Nat.isDigit_of_mem_toDigits (by decide) (by decide) h

/-- A row of digits without a sign is read as the count that it stands for, if that fits into 64
bits. -/
theorem readCount_of_isDigit {digits : List Char} (hne : digits ≠ [])
    (hdigits : digits.all Char.isDigit = true) (h : digitsValue digits < UInt64.size) :
    readCount digits = some (digitsValue digits) := by
  unfold readCount
  dsimp only
  split
  · simp at hdigits
  · rw [if_pos ⟨hne, hdigits⟩, if_pos h]

/-- **A count that fits into 64 bits is read from its digits.** -/
theorem readCount_toDigits {n : Nat} (h : n < UInt64.size) :
    readCount (Nat.toDigits 10 n) = some n := by
  have hall : (Nat.toDigits 10 n).all Char.isDigit = true :=
    List.all_eq_true.mpr fun c hc => isDigit_of_mem_toDigits hc
  rw [readCount_of_isDigit Nat.toDigits_ne_nil hall (by rwa [digitsValue_toDigits]),
    digitsValue_toDigits]

end SymbolicRegression.Decimal
