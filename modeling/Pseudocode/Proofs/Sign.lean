import Pseudocode.Number.Reading

/-!
# Numbers that are read have no sign

A number that is read from digits is put together from its bits, and these never go beyond the bits of the positive
infinity. Numbers with such bits are at least zero (`zero_le_ofBits`), so every number that is read is
(`zero_le_ofPlaces`). None of them is a NaN, which nothing can be compared with.
-/

namespace Pseudocode.Number

open Float.Model Float.Model.UnpackedFloat

/-- A number without a minus sign that is not a NaN. -/
inductive Unsigned : UnpackedFloat → Prop
  | infinity : Unsigned (.infinity .positive)
  | zero : Unsigned (.zero .positive)
  | finite (m : Nat) (e : Int) (h : 0 < m) : Unsigned (.finite .positive m e h)

/-- The bits of the positive infinity, as a natural number. -/
def infinityBits : Nat := 0x7FF0000000000000

section

variable {b : BitVec Format.binary64.numBits} (h : b.toNat ≤ infinityBits)

include h

theorem unpackSign_small : unpackSign b = 0#1 := by
  have hs : (unpackSign b).toNat = b.toNat >>> 63 % 2 := rfl
  apply BitVec.eq_of_toNat_eq
  unfold infinityBits at h
  rw [hs]
  show _ = 0
  omega

theorem unpackMantissa_small (he : unpackExponent b = -1#11) : unpackMantissa b = 0#52 := by
  have he : b.toNat >>> 52 % 2 ^ 11 = 2047 := by
    have he := congrArg BitVec.toNat he
    simpa [unpackExponent, Format.binary64] using he
  apply BitVec.eq_of_toNat_eq
  unfold infinityBits at h
  have hm : b.toNat % 2 ^ 52 = 0 := by omega
  simpa [unpackMantissa, Format.binary64] using hm

/-- Bits up to those of the infinity have no sign, and no mantissa where the exponent is the largest. -/
theorem unsigned_unpack : Unsigned (UnpackedFloat.unpack Format.binary64 b) := by
  unfold UnpackedFloat.unpack
  rw [unpackSign_small h]
  dsimp only
  by_cases he : unpackExponent b = -1#11
  · rw [if_pos he, if_pos (unpackMantissa_small h he)]
    exact .infinity
  rw [if_neg he]
  by_cases h0 : unpackExponent b = 0#11
  · rw [if_pos h0]
    by_cases hm : unpackMantissa b = 0#52
    · rw [dif_pos hm]
      exact .zero
    · rw [dif_neg hm]
      exact .finite ..
  · rw [if_neg h0]
    exact .finite ..

end

theorem packComponents_small {e : BitVec 11} (he : e.toNat < 2047) (m : BitVec 52) :
    (packComponents Format.binary64 .positive e m).toNat ≤ infinityBits := by
  have hp : (packComponents Format.binary64 .positive e m).toNat = e.toNat <<< 52 ||| m.toNat := by
    show (0#1 ++ e ++ m).toNat = _
    rw [BitVec.toNat_append, BitVec.toNat_append]
    simp
  rw [hp, ← Nat.shiftLeft_add_eq_or_of_lt m.isLt]
  have hm := m.isLt
  unfold infinityBits
  omega

theorem pack_small {u : UnpackedFloat} (h : Unsigned u) :
    (UnpackedFloat.pack Format.binary64 u).toNat ≤ infinityBits := by
  cases h with
  | infinity => decide
  | zero => decide
  | finite m e h =>
    unfold UnpackedFloat.pack
    dsimp only
    split
    case isTrue => decide
    case isFalse hb =>
      have hb : (e + Format.binary64.exponentBias + Format.binary64.mantissaBitsWithoutImplicit).toNat < 2047 := by
        have hw : 2 ^ Format.binary64.exponentBits = 2048 := rfl
        rw [hw] at hb
        exact Nat.lt_of_not_le fun hc => hb (Nat.succ_le_succ hc)
      split
      · exact packComponents_small (Nat.lt_of_le_of_lt (Nat.mod_le _ _) hb) _
      · exact packComponents_small (by decide) _

theorem zero_le_of_unsigned {x : Float} (h : Unsigned x.toModel.unpack) : 0.0 ≤ x := by
  have h0 : (0.0 : Float).toModel.unpack = .zero .positive := rfl
  apply decide_eq_true
  show UnpackedFloat.le (0.0 : Float).toModel.unpack x.toModel.unpack = true
  rw [h0]
  generalize x.toModel.unpack = u at h ⊢
  cases h <;> rfl

theorem zero_le_ofBits {a : UInt64} (h : a.toNat ≤ infinityBits) : 0.0 ≤ Float.ofBits a := by
  apply zero_le_of_unsigned
  -- The bits are taken apart and put together again, which could only change those of a NaN.
  exact unsigned_unpack (pack_small (unsigned_unpack h))

theorem zero_le_ofRatio? {num den : Nat} {x : Float} (h : ofRatio? num den = some x) : 0.0 ≤ x := by
  unfold ofRatio? at h
  split at h
  · cases h
    decide
  · dsimp only at h
    split at h
    · cases h
      apply zero_le_ofBits
      rw [Nat.toUInt64_eq, UInt64.toNat_ofNat']
      exact Nat.le_trans (Nat.mod_le _ _) (Nat.le_of_lt ‹_›)
    · cases h

theorem zero_le_ofPlaces (whole fraction : List Char) : 0.0 ≤ ofPlaces whole fraction := by
  unfold ofPlaces ofDecimal
  cases h : ofRatio? _ _ with
  | none => exact zero_le_ofBits (Nat.le_refl _)
  | some x => exact zero_le_ofRatio? h

end Pseudocode.Number
