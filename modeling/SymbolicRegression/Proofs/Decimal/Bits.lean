import SymbolicRegression.Decimal.Text
import SymbolicRegression.Proofs.Decimal.Shortest

set_option autoImplicit false
set_option relaxedAutoImplicit false

/-!
# The bits that are written in decimal

A number is written from its bits: the upper one is its sign, and the others are read as a
mantissa and an exponent that stand for its magnitude.

## Main results

* `SymbolicRegression.Decimal.signBit_iff` — the upper bit is the sign.
* `SymbolicRegression.Decimal.Dyadic.ofBits_spec` — the other bits are the magnitude.
-/

namespace SymbolicRegression.Decimal

open Float.Model Float.Model.UnpackedFloat

/-! ## Parts of the bits -/

/-- The lower bits are the mantissa. -/
lemma toNat_fraction (bits : UInt64) : (bits &&& 0xfffffffffffff).toNat =
    (@unpackMantissa .binary64 bits.toBitVec).toNat := by
  show _ = bits.toNat >>> 0 % 2 ^ 52
  rw [UInt64.toNat_and, Nat.shiftRight_zero]
  exact Nat.and_two_pow_sub_one_eq_mod bits.toNat 52

/-- The middle bits are the exponent. -/
lemma toNat_biased (bits : UInt64) : ((bits >>> 52) &&& 0x7ff).toNat =
    (@unpackExponent .binary64 bits.toBitVec).toNat := by
  show _ = bits.toNat >>> 52 % 2 ^ 11
  rw [UInt64.toNat_and, UInt64.toNat_shiftRight]
  exact Nat.and_two_pow_sub_one_eq_mod (bits.toNat >>> 52) 11

/-- The upper bit is the sign. -/
lemma shiftRight_eq_one_iff (bits : UInt64) :
    bits >>> 63 = 1 ↔ Sign.ofBitVec (@unpackSign .binary64 bits.toBitVec) = .negative := by
  have hsign : (bits >>> 63).toNat = (@unpackSign .binary64 bits.toBitVec).toNat := by
    have hlt := bits.toNat_lt
    show _ = bits.toNat >>> 63 % 2 ^ 1
    rw [UInt64.toNat_shiftRight, show (63 : UInt64).toNat % 64 = 63 from rfl,
      Nat.shiftRight_eq_div_pow]
    omega
  generalize @unpackSign .binary64 bits.toBitVec = b at hsign
  rw [← UInt64.toNat_inj, hsign]
  rcases BitVec.eq_zero_or_eq_one b with rfl | rfl
  · exact iff_of_false (by decide) (by simp [Sign.ofBitVec])
  · exact iff_of_true rfl (by simp [Sign.ofBitVec])

/-! ## Magnitudes -/

/-- What a number is unpacked to has the parts of its bits. -/
lemma unpacked_eq_ofParts (x : Float) : unpacked x =
    ofParts (.ofBitVec (@unpackSign .binary64 x.toBits.toBitVec))
      (@unpackExponent .binary64 x.toBits.toBitVec)
      (@unpackMantissa .binary64 x.toBits.toBitVec) :=
  unpack_eq_ofParts _

/-- **The upper bit of a number is its sign.** -/
theorem signBit_iff {x : Float} {s : Sign} {y : ℚ} (h : IsNumber x s y) :
    x.toBits >>> 63 = 1 ↔ s = .negative := by
  rw [shiftRight_eq_one_iff]
  unfold IsNumber at h
  rw [unpacked_eq_ofParts, ofParts] at h
  split at h
  · split at h <;> exact h.elim
  · split at h
    · split at h <;> rw [h.1]
    · rw [h.1]

/-- **The other bits of a number are its magnitude.** -/
theorem Dyadic.ofBits_spec {x : Float} {s : Sign} {y : ℚ} (h : IsNumber x s y) :
    (ofBits x.toBits).value = y ∧ ((ofBits x.toBits).mantissa ≠ 0 → (ofBits x.toBits).Regular) := by
  unfold IsNumber at h
  rw [unpacked_eq_ofParts, ofParts] at h
  unfold ofBits
  simp only [toNat_fraction, toNat_biased]
  generalize @unpackSign .binary64 x.toBits.toBitVec = b at h
  generalize @unpackExponent .binary64 x.toBits.toBitVec = e at h ⊢
  generalize @unpackMantissa .binary64 x.toBits.toBitVec = m at h ⊢
  have he := e.isLt
  have hm := m.isLt
  simp only [Format.binary64] at he hm
  split at h
  · split at h <;> exact h.elim
  rename_i hones
  have hlt : e.toNat ≠ 2047 := fun heq => hones (BitVec.eq_of_toNat_eq heq)
  split at h
  · rename_i hzero
    rw [if_pos (by rw [hzero]; rfl)]
    split at h
    · rename_i hempty
      rw [hempty]
      exact ⟨by rw [h.2]; simp [value], fun hne => absurd rfl hne⟩
    · refine ⟨h.2.1.symm,
        fun hne => ⟨Nat.pos_of_ne_zero hne, ?_, le_rfl, by norm_num, .inr rfl, ?_⟩⟩
      · exact lt_trans hm (by norm_num)
      · simp
  · rename_i hzero
    have hpos : e.toNat ≠ 0 := fun heq => hzero (BitVec.eq_of_toNat_eq heq)
    rw [if_neg hpos]
    refine ⟨?_, fun _ => ⟨?_, ?_, ?_, ?_, .inl ?_, ?_⟩⟩
    · rw [h.2.1, Nat.add_comm]
      rfl
    · show 0 < m.toNat + 2 ^ 52
      omega
    · show m.toNat + 2 ^ 52 < 2 ^ 53
      omega
    · show -1074 ≤ (e.toNat : ℤ) - 1075
      omega
    · show (e.toNat : ℤ) - 1075 ≤ 971
      omega
    · show 2 ^ 52 ≤ m.toNat + 2 ^ 52
      omega
    · show decide (m.toNat = 0 ∧ 1 < e.toNat) = true ↔
        m.toNat + 2 ^ 52 = 2 ^ 52 ∧ -1074 < (e.toNat : ℤ) - 1075
      rw [decide_eq_true_iff]
      omega

end SymbolicRegression.Decimal
