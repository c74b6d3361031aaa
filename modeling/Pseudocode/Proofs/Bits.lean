import Mathlib
import Pseudocode.Proofs.Rounding

/-!
# Numbers and their bits

The bits of a number are a sign, an exponent and a mantissa, and `Decoded` says what they are taken apart to. Put
together again they are the same, except for those of a NaN (`Decoded.pack`), and a minus sign changes only the sign
(`Decoded.neg`). So a number is its size with its sign (`withSign_size`), and the size of a finite number is the
magnitude of its bits (`magnitude_fits`).
-/

namespace Pseudocode.Number

open Float.Model Float.Model.UnpackedFloat

/-! ## Bits -/

/-- What a sign, an exponent and a mantissa are taken apart to. -/
inductive Decoded (s : Sign) : BitVec 11 → BitVec 52 → UnpackedFloat → Prop
  | infinity : Decoded s (-1#11) 0#52 (.infinity s)
  | nan (m : BitVec 52) (h : m ≠ 0#52) : Decoded s (-1#11) m .notANumber
  | zero : Decoded s 0#11 0#52 (.zero s)
  | small (m : BitVec 52) (h : 0 < m.toNat) : Decoded s 0#11 m (.finite s m.toNat (-1074) h)
  | full (e : BitVec 11) (m : BitVec 52) (he : e ≠ -1#11) (h0 : e ≠ 0#11) (h : 0 < 2 ^ 52 + m.toNat) :
      Decoded s e m (.finite s (2 ^ 52 + m.toNat) (e.toNat - 1075) h)

/-- The bits of a sign, an exponent and a mantissa. -/
abbrev joined (s : Sign) (e : BitVec 11) (m : BitVec 52) : BitVec Format.binary64.numBits :=
  packComponents Format.binary64 s e m

section

variable (s : Sign) (e : BitVec 11) (m : BitVec 52)

theorem toNat_joined : (joined s e m).toNat = s.toBitVec.toNat * 2 ^ 63 + e.toNat * 2 ^ 52 + m.toNat := by
  have hj : (joined s e m).toNat = (s.toBitVec ++ e ++ m).toNat := rfl
  have he := e.isLt
  have hm := m.isLt
  rw [hj, BitVec.toNat_append, BitVec.toNat_append, ← Nat.shiftLeft_add_eq_or_of_lt he,
    ← Nat.shiftLeft_add_eq_or_of_lt hm, Nat.shiftLeft_eq, Nat.shiftLeft_eq]
  omega

theorem toNat_implicit : (1#1 ++ m).toNat = 2 ^ 52 + m.toNat := by
  rw [BitVec.toNat_append, ← Nat.shiftLeft_add_eq_or_of_lt m.isLt]
  rfl

theorem decoded_unpack : Decoded s e m (UnpackedFloat.unpack Format.binary64 (joined s e m)) := by
  unfold UnpackedFloat.unpack
  simp only [unpackMantissa_packComponents, unpackExponent_packComponents, unpackSign_packComponents,
    Sign.ofBitVec_toBitVec, toNat_implicit]
  split_ifs with he hm h0 hm
  · rw [he, hm]
    exact .infinity
  · rw [he]
    exact .nan m hm
  · rw [h0, hm]
    exact .zero
  · rw [h0]
    exact .small m _
  · exact .full e m he h0 _

end

/-- All bits are those of a sign, an exponent and a mantissa. -/
theorem exists_joined (b : BitVec Format.binary64.numBits) : ∃ s e m, b = joined s e m :=
  ⟨_, _, _, (packComponents_unpackSign_unpackExponent_unpackMantissa b).symm⟩

variable {s : Sign} {e : BitVec 11} {m : BitVec 52} {u : UnpackedFloat}

theorem Decoded.neg (h : Decoded s e m u) : Decoded (-s) e m u.neg := by
  cases h with
  | infinity => exact .infinity
  | nan _ h => exact .nan m h
  | zero => exact .zero
  | small _ h => exact .small m h
  | full _ _ he h0 h => exact .full e m he h0 h

theorem Decoded.isNaN_iff (h : Decoded s e m u) : u.isNaN = true ↔ e = -1#11 ∧ m ≠ 0#52 := by
  cases h with
  | nan _ h => simp [UnpackedFloat.isNaN, h]
  | full _ _ he => exact ⟨fun h => absurd h Bool.false_ne_true, fun h => absurd h.1 he⟩
  | _ => simp [UnpackedFloat.isNaN]

theorem Decoded.isInf_iff (h : Decoded s e m u) : u.isInf = true ↔ e = -1#11 ∧ m = 0#52 := by
  cases h with
  | nan _ h => simp [UnpackedFloat.isInf, h]
  | full _ _ he => exact ⟨fun h => absurd h Bool.false_ne_true, fun h => absurd h.1 he⟩
  | _ => simp [UnpackedFloat.isInf]

theorem toNat_lt_of_ne (he : e ≠ -1#11) : e.toNat < 2047 := by
  have hlt := e.isLt
  have hne : e.toNat ≠ 2047 := fun h => he (BitVec.eq_of_toNat_eq h)
  omega

theorem Decoded.unique {v : UnpackedFloat} (h : Decoded s e m u) (h' : Decoded s e m v) : u = v := by
  cases h <;> cases h' <;> first | rfl | contradiction

/-- Except for a NaN, the same bits are put together again. -/
theorem Decoded.pack (h : Decoded s e m u) (hn : ¬(e = -1#11 ∧ m ≠ 0#52)) :
    UnpackedFloat.pack Format.binary64 u = joined s e m := by
  have hb : ¬isNaNBits (joined s e m) = true := by
    rw [isNaNBits, unpackExponent_packComponents, unpackMantissa_packComponents, decide_eq_true_eq]
    exact hn
  rw [h.unique (decoded_unpack s e m), pack_unpack, if_neg hb]

/-! ## Numbers -/

/-- The bits of a number without its sign. -/
def sizeBits (x : Float) : Nat :=
  x.toBits.toNat % 2 ^ 63

/-- The parts of a number. -/
def Parts (x : Float) (s : Sign) (e : BitVec 11) (m : BitVec 52) : Prop :=
  x.toBits.toBitVec = joined s e m

theorem exists_parts (x : Float) : ∃ s e m, Parts x s e m :=
  exists_joined x.toBits.toBitVec

namespace Parts

variable {x : Float}

theorem decoded (h : Parts x s e m) : Decoded s e m x.toModel.unpack := by
  have hd := decoded_unpack s e m
  rw [← (show x.toBits.toBitVec = joined s e m from h)] at hd
  exact hd

theorem toNat (h : Parts x s e m) : x.toBits.toNat = s.toBitVec.toNat * 2 ^ 63 + e.toNat * 2 ^ 52 + m.toNat := by
  rw [← toNat_joined, ← (show x.toBits.toBitVec = joined s e m from h)]
  rfl

theorem sizeBits (h : Parts x s e m) : sizeBits x = e.toNat * 2 ^ 52 + m.toNat := by
  have hx := h.toNat
  have he := e.isLt
  have hm := m.isLt
  unfold Number.sizeBits
  omega

theorem isNegative (h : Parts x s e m) : isNegative x = (s == .negative) := by
  have hx := h.toNat
  have he := e.isLt
  have hm := m.isLt
  have hs : (x.toBits >>> 63).toNat = x.toBits.toNat / 2 ^ 63 := by
    rw [UInt64.toNat_shiftRight, Nat.shiftRight_eq_div_pow]
    rfl
  have h1 : (x.toBits >>> 63 == 1) = decide (s.toBitVec.toNat = 1) := by
    have hone : (1 : UInt64).toNat = 1 := rfl
    rw [Bool.eq_iff_iff, beq_iff_eq, decide_eq_true_eq, ← UInt64.toNat_inj, hs, hone]
    omega
  rw [Number.isNegative, h1]
  cases s <;> rfl

theorem isNaN_iff (h : Parts x s e m) : x.isNaN = false ↔ ¬(e = -1#11 ∧ m ≠ 0#52) := by
  rw [← h.decoded.isNaN_iff, Bool.not_eq_true]
  rfl

/-- The size of a number has the same exponent and mantissa. -/
theorem size (h : Parts x s e m) (hn : x.isNaN = false) :
    Parts (Float.ofBits (Number.sizeBits x).toUInt64) .positive e m := by
  have he := e.isLt
  have hm := m.isLt
  have hb : (Number.sizeBits x).toUInt64.toBitVec = joined .positive e m := by
    apply BitVec.eq_of_toNat_eq
    have hz : Sign.positive.toBitVec.toNat = 0 := rfl
    rw [toNat_joined, h.sizeBits, UInt64.toNat_toBitVec, Nat.toUInt64_eq, UInt64.toNat_ofNat', hz]
    omega
  -- What is made from bits is taken apart and put together again, which changes nothing but a NaN.
  show UnpackedFloat.pack Format.binary64
    (UnpackedFloat.unpack Format.binary64 (Number.sizeBits x).toUInt64.toBitVec) = _
  rw [hb]
  exact (decoded_unpack .positive e m).pack (h.isNaN_iff.mp hn)

theorem neg (h : Parts x s e m) (hn : x.isNaN = false) : Parts (-x) (-s) e m :=
  h.decoded.neg.pack (h.isNaN_iff.mp hn)

theorem unique {y : Float} (h : Parts x s e m) (h' : Parts y s e m) : x = y :=
  Float.toBits_inj.mp (UInt64.eq_of_toBitVec_eq (h.trans h'.symm))

end Parts

/-- A number is its size with its sign. -/
theorem withSign_size {x : Float} (hn : x.isNaN = false) :
    withSign (isNegative x) (Float.ofBits (sizeBits x).toUInt64) = x := by
  obtain ⟨s, e, m, h⟩ := exists_parts x
  have hs := h.size hn
  rw [h.isNegative]
  cases s with
  | positive => exact hs.unique h
  | negative => exact (hs.neg (hs.isNaN_iff.mpr (h.isNaN_iff.mp hn))).unique h

/-- All numbers that are NaN are the same. -/
theorem eq_nan {x : Float} (h : x.isNaN = true) : x = 0.0 / 0.0 := by
  rw [Float.isNaN_eq_decide_eq_nan, decide_eq_true_eq] at h
  rw [h, ← Float.toBits_inj]
  decide

/-- An infinite number is the infinity with its sign. -/
theorem eq_infinity {x : Float} (h : x.isInf = true) : x = withSign (isNegative x) infinity := by
  obtain ⟨s, e, m, hp⟩ := exists_parts x
  obtain ⟨he, hm⟩ := hp.decoded.isInf_iff.mp h
  have hn : x.isNaN = false := hp.isNaN_iff.mpr fun h => h.2 hm
  have hs : sizeBits x = 0x7FF0000000000000 := by
    rw [hp.sizeBits, he, hm]
    rfl
  have hx := withSign_size hn
  rw [hs] at hx
  exact hx.symm

/-! ## Magnitudes -/

theorem exponent_bits (b : UInt64) : ((b >>> 52) &&& 0x7FF).toNat = b.toNat / 2 ^ 52 % 2 ^ 11 := by
  rw [UInt64.toNat_and, UInt64.toNat_shiftRight, ← Nat.and_two_pow_sub_one_eq_mod, ← Nat.shiftRight_eq_div_pow]
  rfl

theorem mantissa_bits (b : UInt64) : (b &&& 0xFFFFFFFFFFFFF).toNat = b.toNat % 2 ^ 52 := by
  rw [UInt64.toNat_and, ← Nat.and_two_pow_sub_one_eq_mod]
  rfl

theorem Parts.magnitude {x : Float} (h : Parts x s e m) :
    magnitude x = if e.toNat == 0 then ⟨m.toNat, -1074, false⟩ else
      ⟨0x10000000000000 + m.toNat, (e.toNat : Int) - 1075, m.toNat == 0 && decide (e.toNat > 1)⟩ := by
  have hx := h.toNat
  have he := e.isLt
  have hm := m.isLt
  have hee : x.toBits.toNat / 2 ^ 52 % 2 ^ 11 = e.toNat := by omega
  have hmm : x.toBits.toNat % 2 ^ 52 = m.toNat := by omega
  rw [Number.magnitude, Magnitude.ofBits, exponent_bits, mantissa_bits, hee, hmm]

/-- A finite number has an exponent below the largest. -/
theorem Parts.exponent_lt {x : Float} (h : Parts x s e m) (hn : x.isNaN = false) (hi : x.isInf = false) :
    e.toNat < 2047 := by
  apply toNat_lt_of_ne
  intro he
  by_cases hm : m = 0#52
  · exact absurd (h.decoded.isInf_iff.mpr ⟨he, hm⟩) (by rw [Bool.not_eq_true]; exact hi)
  · exact absurd (h.decoded.isNaN_iff.mpr ⟨he, hm⟩) (by rw [Bool.not_eq_true]; exact hn)

/-- The size of a finite number other than zero is the magnitude of its bits. -/
theorem magnitude_fits {x : Float} (hn : x.isNaN = false) (hi : x.isInf = false) (h0 : (magnitude x).m ≠ 0) :
    (magnitude x).Fits ∧ (magnitude x).bits = sizeBits x := by
  obtain ⟨s, e, m, h⟩ := exists_parts x
  have hm := m.isLt
  have he := h.exponent_lt hn hi
  rw [h.magnitude] at h0 ⊢
  rw [h.sizeBits]
  split_ifs at h0 ⊢ with hz
  · rw [beq_iff_eq] at hz
    refine ⟨⟨Nat.pos_of_ne_zero h0, Nat.lt_trans hm (by decide), by simp, by simp, .inr rfl, by simp⟩, ?_⟩
    rw [Magnitude.bits, hz]
    simp
  · rw [beq_iff_eq] at hz
    refine ⟨⟨?_, ?_, ?_, ?_, .inl ?_, ?_⟩, ?_⟩ <;> dsimp only [Magnitude.bits]
    case refine_6 =>
      rw [Bool.and_eq_true, beq_iff_eq, decide_eq_true_iff]
      omega
    all_goals omega

/-- A number without a magnitude is a zero. -/
theorem eq_zero {x : Float} (hn : x.isNaN = false) (h0 : (magnitude x).m = 0) : x = withSign (isNegative x) 0.0 := by
  obtain ⟨s, e, m, h⟩ := exists_parts x
  have hs : sizeBits x = 0 := by
    rw [h.magnitude] at h0
    rw [h.sizeBits]
    split_ifs at h0 with hz
    · rw [beq_iff_eq] at hz
      rw [hz, (show m.toNat = 0 from h0), Nat.zero_mul]
    · exact absurd h0 (by simp)
  have hx := withSign_size hn
  rw [hs] at hx
  exact hx.symm

end Pseudocode.Number
