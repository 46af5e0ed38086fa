import Mathlib

set_option autoImplicit false
set_option relaxedAutoImplicit false

/-!
# Numbers and their bits

The bits of a number determine its sign, mantissa and exponent and are determined by them. What is
unpacked from bits is *canonical*: the mantissa fills its bits unless the exponent is least, and
the exponent is in range. Packing forgets nothing of a canonical number.

## Main definitions

* `SymbolicRegression.unpacked` — the sign, mantissa and exponent of a number.
* `SymbolicRegression.Canonical` — the form of unpacked numbers.

## Main results

* `SymbolicRegression.canonical_unpacked` — numbers are unpacked in canonical form.
* `SymbolicRegression.unpack_pack`, `SymbolicRegression.unpack_pack_of_overflow` — a canonical
  number survives packing, and one with too great an exponent becomes infinite.
* `SymbolicRegression.unpacked_injective` — a number is determined by what it is unpacked to.
* `SymbolicRegression.unpacked_neg` — negation turns the sign.
-/

namespace SymbolicRegression

open Float.Model Float.Model.UnpackedFloat

/-! ## Unpacked numbers -/

/-- The sign, mantissa and exponent of a number. -/
def unpacked (x : Float) : UnpackedFloat := x.toModel.unpack

/-- The mantissa fills its bits unless the exponent is least, and the exponent is in range. -/
def Canonical : UnpackedFloat → Prop
  | .finite _ m e _ => m < 2 ^ 53 ∧ -1074 ≤ e ∧ e ≤ 971 ∧ (2 ^ 52 ≤ m ∨ e = -1074)
  | _ => True

/-! ## Bits and parts -/

/-- The number that parts stand for. -/
def ofParts (s : Sign) (e : BitVec 11) (m : BitVec 52) : UnpackedFloat :=
  if e = -1#11 then if m = 0#52 then .infinity s else .notANumber
  else if e = 0#11 then
    if h : m = 0#52 then .zero s
    else .finite s m.toNat (-1074) (by simpa [BitVec.toNat_pos, BitVec.pos_iff_ne_zero] using h)
  else .finite s (2 ^ 52 + m.toNat) (e.toNat - 1075) (by omega)

/-- The leading bit of a mantissa that fills its bits. -/
lemma toNat_one_append (m : BitVec 52) : (1#1 ++ m).toNat = 2 ^ 52 + m.toNat := by
  rw [BitVec.toNat_append, ← Nat.shiftLeft_add_eq_or_of_lt m.isLt]
  simp [Nat.shiftLeft_eq]

/-- Bits are unpacked to what their parts stand for. -/
lemma unpack_eq_ofParts (b : BitVec 64) : UnpackedFloat.unpack .binary64 b =
    ofParts (.ofBitVec (@unpackSign .binary64 b)) (@unpackExponent .binary64 b)
      (@unpackMantissa .binary64 b) := by
  have hsub : @unpackExponent .binary64 b = 0#11 →
      ((@unpackExponent .binary64 b).toNat : ℤ) - (1023 + 52) + 1 = -1074 := by
    intro h
    rw [h]
    rfl
  simp only [UnpackedFloat.unpack, ofParts]
  by_cases hones : @unpackExponent .binary64 b = -1#11
  · simp only [hones, if_true]
  by_cases hzero : @unpackExponent .binary64 b = 0#11
  · rw [if_neg hones, if_neg hones, if_pos hzero, if_pos hzero]
    split
    · rfl
    · congr 1
      exact hsub hzero
  · rw [if_neg hones, if_neg hones, if_neg hzero, if_neg hzero]
    congr 1
    exact toNat_one_append _

/-- Packed parts are unpacked to what they stand for. -/
lemma unpack_packComponents (s : Sign) (e : BitVec 11) (m : BitVec 52) :
    UnpackedFloat.unpack .binary64 (packComponents .binary64 s e m) = ofParts s e m := by
  rw [unpack_eq_ofParts, unpackSign_packComponents, Sign.ofBitVec_toBitVec,
    unpackExponent_packComponents, unpackMantissa_packComponents]

/-! ## Canonical numbers -/

/-- Numbers are unpacked in canonical form. -/
theorem canonical_unpack (x : Float.Model) : Canonical x.unpack := by
  rw [Float.Model.unpack, unpack_eq_ofParts]
  generalize @unpackExponent .binary64 _ = e
  generalize @unpackMantissa .binary64 _ = m
  have he := e.isLt
  have hm := m.isLt
  simp only [Format.binary64] at he hm
  unfold ofParts
  split
  · split <;> trivial
  · rename_i hne
    have hlt : e.toNat ≠ 2047 := fun h => hne (BitVec.eq_of_toNat_eq h)
    split
    · split
      · trivial
      · exact ⟨by omega, by omega, by omega, .inr rfl⟩
    · rename_i hzero
      have hpos : e.toNat ≠ 0 := fun h => hzero (BitVec.eq_of_toNat_eq h)
      exact ⟨by omega, by omega, by omega, .inl (by omega)⟩

/-- A mantissa that fills its bits has a leading bit. -/
lemma log2_eq_of_normal {m : ℕ} (h : 2 ^ 52 ≤ m) (h' : m < 2 ^ 53) : m.log2 = 52 := by
  have hne : m ≠ 0 := by omega
  have hlo := (Nat.le_log2 hne).mpr h
  have hhi := (Nat.log2_lt hne).mpr h'
  omega

/-- The parts of a number whose mantissa fills its bits. -/
lemma ofParts_normal (s : Sign) {m b : ℕ} (hm : 0 < m) (h : 2 ^ 52 ≤ m) (h' : m < 2 ^ 53)
    (hb : 0 < b) (hb' : b < 2047) :
    ofParts s (BitVec.ofNat 11 b) (BitVec.ofNat 52 m) = .finite s m (b - 1075) hm := by
  have htoNat : (BitVec.ofNat 11 b).toNat = b := by
    rw [BitVec.toNat_ofNat]
    omega
  have hones : BitVec.ofNat 11 b ≠ -1#11 := fun heq => by
    have := congrArg BitVec.toNat heq
    rw [htoNat] at this
    simp at this
    omega
  have hzero : BitVec.ofNat 11 b ≠ 0#11 := fun heq => by
    have := congrArg BitVec.toNat heq
    rw [htoNat] at this
    simp at this
    omega
  have hmantissa : 2 ^ 52 + (BitVec.ofNat 52 m).toNat = m := by
    rw [BitVec.toNat_ofNat]
    omega
  simp only [ofParts, if_neg hones, if_neg hzero, htoNat, hmantissa]

/-- The parts of a number whose mantissa is short. -/
lemma ofParts_subnormal (s : Sign) {m : ℕ} (hm : 0 < m) (h : m < 2 ^ 52) :
    ofParts s 0#11 (BitVec.ofNat 52 m) = .finite s m (-1074) hm := by
  have htoNat : (BitVec.ofNat 52 m).toNat = m := by
    rw [BitVec.toNat_ofNat]
    omega
  have hzero : BitVec.ofNat 52 m ≠ 0#52 := fun heq => by
    have := congrArg BitVec.toNat heq
    rw [htoNat] at this
    simp at this
    omega
  rw [ofParts, if_neg (by decide), if_pos rfl, dif_neg hzero]
  simp only [htoNat]

/-- What packing does to a finite number whose exponent is not too small. -/
lemma pack_finite (s : Sign) {m : ℕ} {e : ℤ} (hm : 0 < m) (he : -1074 ≤ e) :
    UnpackedFloat.pack .binary64 (.finite s m e hm) =
      if 971 < e then packComponents .binary64 s (-1#11) 0#52
      else if m.log2 = 52 then
        packComponents .binary64 s (BitVec.ofNat 11 (e + 1075).toNat) (BitVec.ofNat 52 m)
      else packComponents .binary64 s 0#11 (BitVec.ofNat 52 m) := by
  have hbiased : (e + (Format.exponentBias .binary64 : ℕ) + (52 : ℕ)).toNat = (e + 1075).toNat := by
    congr 1
    show e + (1023 : ℕ) + (52 : ℕ) = _
    omega
  have hrange : (2 ^ 11 ≤ (e + 1075).toNat + 1) = (971 < e) := by
    apply propext
    omega
  have hbits : (m.log2 + 1 = Format.mantissaBits .binary64) = (m.log2 = 52) := by
    apply propext
    show m.log2 + 1 = 53 ↔ _
    omega
  simp only [UnpackedFloat.pack, hbiased, hrange, hbits]
  rfl

/-- **A canonical number survives packing.** -/
theorem unpack_pack {u : UnpackedFloat} (h : Canonical u) : (Float.Model.pack u).unpack = u := by
  show UnpackedFloat.unpack .binary64 (UnpackedFloat.pack .binary64 u) = u
  cases u with
  | notANumber => rfl
  | infinity s => cases s <;> rfl
  | zero s => cases s <;> rfl
  | finite s m e hm =>
    obtain ⟨hlt, hmin, hmax, hfull⟩ := h
    rw [pack_finite s hm hmin, if_neg (by omega)]
    by_cases hnormal : 2 ^ 52 ≤ m
    · rw [if_pos (log2_eq_of_normal hnormal hlt), unpack_packComponents,
        ofParts_normal s hm hnormal hlt (by omega) (by omega)]
      congr 1
      omega
    · have hlog : m.log2 ≠ 52 := fun hlog => hnormal ((Nat.le_log2 (by omega)).mp (by omega))
      rw [if_neg hlog, unpack_packComponents, ofParts_subnormal s hm (by omega)]
      congr 1
      omega

/-- **A number whose exponent is too great is packed as infinity.** -/
theorem unpack_pack_of_overflow (s : Sign) {m : ℕ} {e : ℤ} (hm : 0 < m) (he : 971 < e) :
    (Float.Model.pack (.finite s m e hm)).unpack = .infinity s := by
  show UnpackedFloat.unpack .binary64 (UnpackedFloat.pack .binary64 _) = _
  rw [pack_finite s hm (by omega), if_pos he, unpack_packComponents]
  rfl

/-! ## Numbers -/

/-- **Numbers are unpacked in canonical form.** -/
theorem canonical_unpacked (x : Float) : Canonical (unpacked x) := canonical_unpack x.toModel

/-- **A number is determined by what it is unpacked to.** -/
theorem unpacked_injective {x y : Float} (h : unpacked x = unpacked y) : x = y := by
  have hbits := (unpack_inj_of_valid x.toModel.valid y.toModel.valid).mp h
  exact Float.toBits_inj.mp (UInt64.toBitVec_inj.mp hbits)

/-- Turning the sign of a canonical number leaves it canonical. -/
lemma Canonical.neg {u : UnpackedFloat} (h : Canonical u) : Canonical u.neg := by
  cases u <;> exact h

/-- Negation turns the sign and nothing else. -/
theorem unpacked_neg (x : Float) : unpacked (-x) = (unpacked x).neg :=
  unpack_pack (canonical_unpacked x).neg

/-- The negative of a number that is defined is defined. -/
theorem isNaN_neg (x : Float) : (-x).isNaN = x.isNaN := by
  show (unpacked (-x)).isNaN = (unpacked x).isNaN
  rw [unpacked_neg]
  cases unpacked x <;> rfl

/-- The negative of a number is finite just if the number is. -/
theorem isFinite_neg (x : Float) : (-x).isFinite = x.isFinite := by
  show (unpacked (-x)).isFinite = (unpacked x).isFinite
  rw [unpacked_neg]
  cases unpacked x <;> rfl

/-- A finite number is defined. -/
theorem isNaN_of_isFinite {x : Float} (h : x.isFinite = true) : x.isNaN = false := by
  change (unpacked x).isFinite = true at h
  show (unpacked x).isNaN = false
  cases hx : unpacked x
  case notANumber => simp [hx, UnpackedFloat.isFinite] at h
  all_goals rfl

end SymbolicRegression
