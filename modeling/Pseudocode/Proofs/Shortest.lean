import Pseudocode.Number.Decimal
import Pseudocode.Number.Reading
import Pseudocode.Proofs.Bits

/-!
# The shortest decimal reads back

The decimal that is written for a number is found among those that are rounded to it, so it is one of them
(`Magnitude.shortest_near`). Reading looks at the size of the exponent first, but a decimal that is rounded to a number
is never so small or large that this matters (`le_lead`, `lead_le`). So what is written for a number is read as that
number (`ofScientific_of_near`).
-/

namespace Pseudocode.Number

/-! ## Decimals among the reals -/

/-- The real that a decimal is. -/
def Decimal.value (d : Decimal) : ℚ :=
  d.digits * 10 ^ d.exp

theorem ten_zpow_pos (e : Int) : (0 : ℚ) < 10 ^ e :=
  zpow_pos (by norm_num) e

theorem ten_pow_cast (n : Nat) : ((Nat.pow 10 n : Nat) : ℚ) = 10 ^ n :=
  Nat.cast_pow 10 n

/-- A power with a negative exponent is taken to the other side. -/
theorem zpow_toNat {b : ℚ} (hb : b ≠ 0) (i : Int) : b ^ i * b ^ (-i).toNat = b ^ i.toNat := by
  rw [← zpow_natCast, ← zpow_natCast, ← zpow_add₀ hb]
  congr 1
  omega

/-- Decimals and numbers are compared exactly. -/
theorem compareScaled_eq (a : Nat) (i : Int) (n : Nat) (j : Int) :
    compareScaled a i n j = compare ((a : ℚ) * 10 ^ i) (n * 2 ^ j) := by
  have hi := zpow_toNat (b := 10) (by norm_num) i
  have hj := zpow_toNat (b := 2) (by norm_num) j
  have hl : (((a * Nat.pow 10 i.toNat) <<< (-j).toNat : Nat) : ℚ) =
      a * 10 ^ i * (10 ^ (-i).toNat * 2 ^ (-j).toNat) := by
    rw [shiftLeft_cast, Nat.cast_mul, ten_pow_cast, ← hi]
    ring
  have hr : ((n <<< j.toNat * Nat.pow 10 (-i).toNat : Nat) : ℚ) =
      n * 2 ^ j * (10 ^ (-i).toNat * 2 ^ (-j).toNat) := by
    rw [Nat.cast_mul, shiftLeft_cast, ten_pow_cast, ← hj]
    ring
  have hp : (0 : ℚ) < 10 ^ (-i).toNat * 2 ^ (-j).toNat := by positivity
  unfold compareScaled
  rcases lt_trichotomy ((a : ℚ) * 10 ^ i) (n * 2 ^ j) with h | h | h
  · rw [compare_lt_iff_lt.mpr h, Nat.compare_eq_lt, ← Nat.cast_lt (α := ℚ), hl, hr]
    exact mul_lt_mul_of_pos_right h hp
  · rw [compare_eq_iff_eq.mpr h, Nat.compare_eq_eq, ← Nat.cast_inj (R := ℚ), hl, hr, h]
  · rw [compare_gt_iff_gt.mpr h, Nat.compare_eq_gt, ← Nat.cast_lt (α := ℚ), hl, hr]
    exact mul_lt_mul_of_pos_right h hp

namespace Magnitude

variable {x : Magnitude} {d : Decimal}

theorem near_of_readsBack (h : x.readsBack d = true) : x.Near d.value := by
  have h' : ((compare d.value (x.below * 2 ^ (x.q - 2)) == .gt) ||
        (x.m % 2 == 0) && (compare d.value (x.below * 2 ^ (x.q - 2)) == .eq)) = true ∧
      ((compare d.value ((4 * x.m + 2 : Nat) * 2 ^ (x.q - 2)) == .lt) ||
        (x.m % 2 == 0) && (compare d.value ((4 * x.m + 2 : Nat) * 2 ^ (x.q - 2)) == .eq)) = true := by
    rw [← Bool.and_eq_true, ← h, readsBack, compareScaled_eq, compareScaled_eq]
    rfl
  simp only [Bool.or_eq_true, Bool.and_eq_true, beq_iff_eq, compare_gt_iff_gt, compare_lt_iff_lt,
    compare_eq_iff_eq] at h'
  obtain ⟨hl, hh⟩ := h'
  refine ⟨?_, ?_, ?_⟩
  · rcases hl with hl | ⟨-, hl⟩
    · exact hl.le
    · exact hl.ge
  · rcases hh with hh | ⟨-, hh⟩
    · exact hh.le
    · exact hh.le
  · rintro (he | he)
    · exact (hl.resolve_left fun hlt => absurd he hlt.ne').1
    · exact (hh.resolve_left fun hlt => absurd he hlt.ne).1

/-- On a grid only decimals are taken that read back. -/
theorem readsBack_of_onGrid? {e : Int} (h : x.onGrid? e = some d) : x.readsBack d = true ∧ d.exp = e := by
  unfold onGrid? at h
  generalize x.neighbours e = n at h
  obtain ⟨below, above, tilt⟩ := n
  dsimp only at h
  split at h
  case h_6 => cases h
  case h_3 hl hh =>
    split_ifs at h <;> cases h
    · exact ⟨hl, rfl⟩
    · exact ⟨hh, rfl⟩
  all_goals
    cases h
    exact ⟨by assumption, rfl⟩

/-- Stripping zeros changes neither the value nor lowers the exponent. -/
theorem value_strip (fuel : Nat) (d : Decimal) : (d.strip fuel).value = d.value ∧ d.exp ≤ (d.strip fuel).exp := by
  induction fuel generalizing d with
  | zero => exact ⟨rfl, le_refl _⟩
  | succ fuel ih =>
    rw [Decimal.strip]
    split_ifs with h
    · rw [Bool.and_eq_true, beq_iff_eq] at h
      obtain ⟨hv, he⟩ := ih ⟨d.digits / 10, d.exp + 1⟩
      refine ⟨hv.trans ?_, by dsimp only at he; omega⟩
      have hd : d.digits = 10 * (d.digits / 10) := by omega
      have hd' : (d.digits : ℚ) = 10 * (d.digits / 10 : Nat) := by exact_mod_cast hd
      rw [Decimal.value, Decimal.value, hd', zpow_add_one₀ (by norm_num)]
      ring
    · exact ⟨rfl, le_refl _⟩

theorem value_exactDecimal (x : Magnitude) : x.exactDecimal.value = x.m * 2 ^ x.q := by
  have h2 : (2 : ℚ) ^ x.q.toNat * 2 ^ min x.q 0 = 2 ^ x.q := by
    rw [← zpow_natCast, ← zpow_add₀ (by norm_num)]
    congr 1
    omega
  have h5 : (5 : ℚ) ^ (-x.q).toNat * 5 ^ min x.q 0 = 1 := by
    rw [← zpow_natCast, ← zpow_add₀ (by norm_num), show ((-x.q).toNat : Int) + min x.q 0 = 0 by omega, zpow_zero]
  have hp : ((Nat.pow 5 (-x.q).toNat : Nat) : ℚ) = 5 ^ (-x.q).toNat := Nat.cast_pow 5 _
  have ht : (10 : ℚ) ^ min x.q 0 = 2 ^ min x.q 0 * 5 ^ min x.q 0 := by
    rw [← mul_zpow]
    norm_num
  rw [Decimal.value, exactDecimal, Nat.cast_mul, shiftLeft_cast, hp, ht]
  calc (x.m : ℚ) * 2 ^ x.q.toNat * 5 ^ (-x.q).toNat * (2 ^ min x.q 0 * 5 ^ min x.q 0)
      = x.m * (2 ^ x.q.toNat * 2 ^ min x.q 0) * (5 ^ (-x.q).toNat * 5 ^ min x.q 0) := by ring
    _ = x.m * 2 ^ x.q := by rw [h2, h5, mul_one]

/-- A magnitude is near itself. -/
theorem near_exactDecimal (hf : x.Fits) : x.Near x.exactDecimal.value := by
  have hq : (x.m : ℚ) * 2 ^ x.q = (4 * x.m : Nat) * 2 ^ (x.q - 2) := by
    have h4 : (2 : ℚ) ^ x.q = 4 * 2 ^ (x.q - 2) := by
      rw [zpow_sub₀ (by norm_num)]
      norm_num
      ring
    rw [h4]
    push_cast
    ring
  have hp := two_zpow_pos (x.q - 2)
  have hl : (x.below : ℚ) < (4 * x.m : Nat) := by
    have h := hf.pos
    have hlt : x.below < 4 * x.m := by
      unfold below
      split <;> omega
    exact_mod_cast hlt
  have hh : ((4 * x.m : Nat) : ℚ) < (4 * x.m + 2 : Nat) := by exact_mod_cast (by omega : 4 * x.m < 4 * x.m + 2)
  rw [value_exactDecimal, hq]
  refine ⟨(mul_lt_mul_of_pos_right hl hp).le, (mul_lt_mul_of_pos_right hh hp).le, ?_⟩
  rintro (h | h)
  · exact absurd h (mul_lt_mul_of_pos_right hl hp).ne'
  · exact absurd h (mul_lt_mul_of_pos_right hh hp).ne

theorem le_raiseScale (num den fuel : Nat) (k : Int) : k ≤ raiseScale num den fuel k := by
  induction fuel generalizing k with
  | zero => exact le_refl _
  | succ fuel ih =>
    rw [raiseScale]
    split
    · exact le_refl _
    · exact le_trans (by omega) (ih (k + 1))

/-- The grids that are tried are not finer than any number needs. -/
theorem le_scale (hf : x.Fits) : -325 ≤ scale x.ratio.1 x.ratio.2 := by
  have hd : x.ratio.2.log2 = (-x.q).toNat := by
    show (1 <<< (-x.q).toNat).log2 = _
    rw [Nat.shiftLeft_eq, Nat.one_mul, Nat.log2_two_pow]
  have hq := hf.low
  refine le_trans ?_ (le_raiseScale ..)
  rw [hd]
  omega

/-- What the grids are searched for. -/
def found (x : Magnitude) : Decimal :=
  ((List.range 17).findSome? fun n : Nat => x.onGrid? (scale x.ratio.1 x.ratio.2 - (n + 1 : Nat))).getD x.exactDecimal

theorem shortest_eq (x : Magnitude) : x.shortest = x.found.strip 800 :=
  rfl

theorem found_near (hf : x.Fits) : x.Near x.found.value ∧ -1074 ≤ x.found.exp := by
  unfold found
  cases h : (List.range 17).findSome? fun n : Nat => x.onGrid? (scale x.ratio.1 x.ratio.2 - (n + 1 : Nat)) with
  | none =>
    have hq := hf.low
    refine ⟨near_exactDecimal hf, ?_⟩
    show -1074 ≤ min x.q 0
    omega
  | some d =>
    obtain ⟨n, hn, hd⟩ := List.exists_of_findSome?_eq_some h
    obtain ⟨hr, he⟩ := readsBack_of_onGrid? hd
    have hn' := List.mem_range.mp hn
    have hs := le_scale hf
    refine ⟨near_of_readsBack hr, ?_⟩
    rw [Option.getD_some, he]
    omega

/-- The decimal that is written for a magnitude is near it. -/
theorem shortest_near (hf : x.Fits) : x.Near x.shortest.value ∧ -1074 ≤ x.shortest.exp := by
  obtain ⟨hn, hl⟩ := found_near hf
  obtain ⟨hv, he⟩ := value_strip 800 x.found
  rw [shortest_eq, hv]
  exact ⟨hn, le_trans hl he⟩

end Magnitude

/-! ## Reading a decimal -/

theorem two_pow_le_ten_pow {l t : Nat} (h : 28 * l ≤ 93 * t) : (2 : ℚ) ^ l ≤ 10 ^ t := by
  refine le_of_pow_le_pow_left₀ (n := 93) (by norm_num) (by positivity) ?_
  calc ((2 : ℚ) ^ l) ^ 93 = (2 ^ 93) ^ l := pow_right_comm 2 _ _
    _ ≤ (10 ^ 28) ^ l := pow_le_pow_left₀ (by norm_num) (by norm_num) _
    _ = 10 ^ (28 * l) := (pow_mul 10 28 _).symm
    _ ≤ 10 ^ (93 * t) := pow_le_pow_right₀ (by norm_num) h
    _ = (10 ^ t) ^ 93 := by rw [Nat.mul_comm, pow_mul]

theorem ten_pow_le_two_pow {l t : Nat} (h : 196 * t ≤ 59 * l) : (10 : ℚ) ^ t ≤ 2 ^ l := by
  refine le_of_pow_le_pow_left₀ (n := 196) (by norm_num) (by positivity) ?_
  calc ((10 : ℚ) ^ t) ^ 196 = 10 ^ (196 * t) := by rw [← pow_mul, Nat.mul_comm]
    _ ≤ 10 ^ (59 * l) := pow_le_pow_right₀ (by norm_num) h
    _ = (10 ^ 59) ^ l := pow_mul 10 59 _
    _ ≤ (2 ^ 196) ^ l := pow_le_pow_left₀ (by norm_num) (by norm_num) _
    _ = (2 ^ l) ^ 196 := pow_right_comm 2 _ _

/-- A decimal of the size of a number has not too many digits. -/
theorem log2_le {n : Nat} {e : Int} (hn : 0 < n) (he : -1100 ≤ e) (h : (n : ℚ) * 10 ^ e < 2 ^ 1024) :
    n.log2 < 6000 := by
  rw [Nat.log2_lt hn.ne']
  have hp := ten_zpow_pos (-e)
  have h1 : (n : ℚ) < 2 ^ 1024 * 10 ^ (-e) := by
    have h2 := mul_lt_mul_of_pos_right h hp
    rw [mul_assoc, ← zpow_add₀ (by norm_num), add_neg_cancel, zpow_zero, mul_one] at h2
    exact h2
  have h3 : (10 : ℚ) ^ (-e) ≤ 2 ^ (4 * 1100) := by
    calc (10 : ℚ) ^ (-e) ≤ 10 ^ ((1100 : Nat) : Int) := zpow_le_zpow_right₀ (by norm_num) (by omega)
      _ = 10 ^ 1100 := zpow_natCast 10 1100
      _ ≤ (2 ^ 4) ^ 1100 := pow_le_pow_left₀ (by norm_num) (by norm_num) 1100
      _ = 2 ^ (4 * 1100) := (pow_mul 2 4 1100).symm
  have h4 : (n : ℚ) < 2 ^ 6000 := by
    calc (n : ℚ) < 2 ^ 1024 * 10 ^ (-e) := h1
      _ ≤ 2 ^ 1024 * 2 ^ (4 * 1100) := mul_le_mul_of_nonneg_left h3 (by positivity)
      _ = 2 ^ (1024 + 4 * 1100) := (pow_add 2 1024 (4 * 1100)).symm
      _ ≤ 2 ^ 6000 := pow_le_pow_right₀ (by norm_num) (by norm_num)
  exact_mod_cast h4

/-- A decimal that is not below every number has no smaller exponent than a number can have. -/
theorem le_lead {n : Nat} {e : Int} (hlog : n.log2 < 6000) (hl : (2 : ℚ) ^ (-1075 : Int) ≤ n * 10 ^ e) :
    -400 ≤ e + (n.log2 : Int) * 30103 / 100000 := by
  by_contra hlead
  -- With so small an exponent, `2 ^ log2 n` is below a power of ten that makes the decimal too small.
  obtain ⟨t, ht⟩ : ∃ t : Nat, (t : Int) = -400 - e := ⟨(-400 - e).toNat, by omega⟩
  have h2 : (2 : ℚ) ^ n.log2 ≤ 10 ^ (t + 1) := two_pow_le_ten_pow (by omega)
  have hn : (n : ℚ) < 2 ^ (n.log2 + 1) := by exact_mod_cast Nat.lt_log2_self
  have hsmall : (n : ℚ) * 10 ^ e < 2 ^ (-1075 : Int) := by
    calc (n : ℚ) * 10 ^ e < 2 ^ (n.log2 + 1) * 10 ^ e := mul_lt_mul_of_pos_right hn (ten_zpow_pos e)
      _ = 2 ^ n.log2 * 2 * 10 ^ e := by rw [pow_succ]
      _ ≤ 10 ^ (t + 1) * 2 * 10 ^ e := by gcongr
      _ = 2 * (10 ^ ((t + 1 : Nat) : Int) * 10 ^ e) := by rw [zpow_natCast]; ring
      _ = 2 * 10 ^ (-399 : Int) := by
        rw [← zpow_add₀ (by norm_num)]
        congr 2
        omega
      _ ≤ 10 * 10 ^ (-399 : Int) := mul_le_mul_of_nonneg_right (by norm_num) (ten_zpow_pos _).le
      _ = 10 ^ (-398 : Int) := by
        rw [← zpow_one_add₀ (by norm_num)]
        norm_num
      _ < 10 ^ (-336 : Int) := zpow_lt_zpow_right₀ (by norm_num) (by norm_num)
      _ = ((10 : ℚ) ^ 336)⁻¹ := by rw [zpow_neg]; norm_cast
      _ ≤ ((2 : ℚ) ^ 1075)⁻¹ := inv_anti₀ (by positivity) (two_pow_le_ten_pow (by norm_num))
      _ = 2 ^ (-1075 : Int) := by rw [zpow_neg]; norm_cast
  exact absurd hl (not_le.mpr hsmall)

/-- A decimal that is not above every number has no larger exponent than a number can have. -/
theorem lead_le {n : Nat} {e : Int} (hn : 0 < n) (hlog : n.log2 < 6000) (hu : (n : ℚ) * 10 ^ e < 2 ^ 1024) :
    e + (n.log2 : Int) * 30103 / 100000 ≤ 400 := by
  by_contra hlead
  have hbig : (2 : ℚ) ^ 1024 ≤ 10 ^ (400 : Int) := by
    calc (2 : ℚ) ^ 1024 ≤ 10 ^ 400 := two_pow_le_ten_pow (by norm_num)
      _ = 10 ^ (400 : Int) := (zpow_natCast 10 400).symm
  have he : e < 400 := by
    by_contra hge
    have h1 : (1 : ℚ) ≤ n := by exact_mod_cast hn
    have h2 : (10 : ℚ) ^ (400 : Int) ≤ 10 ^ e := zpow_le_zpow_right₀ (by norm_num) (not_lt.mp hge)
    have h3 : (10 : ℚ) ^ e ≤ n * 10 ^ e := le_mul_of_one_le_left (ten_zpow_pos e).le h1
    exact absurd hu (not_lt.mpr (hbig.trans (h2.trans h3)))
  -- With so large an exponent, `2 ^ log2 n` is above a power of ten that makes the decimal too large.
  obtain ⟨t, ht⟩ : ∃ t : Nat, (t : Int) = 400 - e := ⟨(400 - e).toNat, by omega⟩
  have h10 : (10 : ℚ) ^ t ≤ n := by
    calc (10 : ℚ) ^ t ≤ 2 ^ n.log2 := ten_pow_le_two_pow (by omega)
      _ ≤ n := by exact_mod_cast Nat.log2_self_le hn.ne'
  have hlarge : (2 : ℚ) ^ 1024 ≤ n * 10 ^ e := by
    calc (2 : ℚ) ^ 1024 ≤ 10 ^ (400 : Int) := hbig
      _ = 10 ^ ((t : Int) + e) := by rw [ht, sub_add_cancel]
      _ = 10 ^ t * 10 ^ e := by rw [zpow_add₀ (by norm_num), zpow_natCast]
      _ ≤ n * 10 ^ e := mul_le_mul_of_nonneg_right h10 (ten_zpow_pos e).le
  exact absurd hu (not_lt.mpr hlarge)

/-- Decimals that are near a magnitude are read as it, however their digits and exponent are given. -/
theorem ofScientific_of_near {x : Magnitude} {n : Nat} {e : Int} (hf : x.Fits) (he : -1100 ≤ e)
    (h : x.Near (n * 10 ^ e)) : ofScientific n e = Float.ofBits x.bits.toUInt64 := by
  have hn : 0 < n := by
    rcases Nat.eq_zero_or_pos n with rfl | hn
    · have hr := h.pos hf
      simp at hr
    · exact hn
  have hl : (2 : ℚ) ^ (-1075 : Int) ≤ n * 10 ^ e := by
    have hb : 2 ≤ x.below := by
      have h1 := hf.pos
      have h2 := x.below_ge
      omega
    have hb' : (2 : ℚ) ≤ x.below := by exact_mod_cast hb
    have hq := hf.low
    calc (2 : ℚ) ^ (-1075 : Int) ≤ 2 ^ (x.q - 2 + 1) := zpow_le_zpow_right₀ (by norm_num) (by omega)
      _ = 2 * 2 ^ (x.q - 2) := by rw [zpow_add_one₀ (by norm_num), mul_comm]
      _ ≤ x.below * 2 ^ (x.q - 2) := mul_le_mul_of_nonneg_right hb' (two_zpow_pos _).le
      _ ≤ n * 10 ^ e := h.low
  have hu : (n : ℚ) * 10 ^ e < 2 ^ 1024 := by
    have hq := hf.high
    calc (n : ℚ) * 10 ^ e < 2 ^ (x.q + 52 + 1) := h.lt_high hf
      _ ≤ 2 ^ ((1024 : Nat) : Int) := zpow_le_zpow_right₀ (by norm_num) (by omega)
      _ = 2 ^ 1024 := zpow_natCast 2 1024
  have hlog := log2_le hn he hu
  have hlow := le_lead hlog hl
  have hhigh := lead_le hn hlog hu
  have hr : ((n * Nat.pow 10 e.toNat : Nat) : ℚ) / (Nat.pow 10 (-e).toNat : Nat) = n * 10 ^ e := by
    rw [Nat.cast_mul, ten_pow_cast, ten_pow_cast, ← zpow_toNat (by norm_num) e, mul_div_assoc,
      mul_div_cancel_right₀ _ (by positivity)]
  have hd : ofDecimal n e = Float.ofBits x.bits.toUInt64 := by
    have hp : 0 < Nat.pow 10 (-e).toNat := Nat.pow_pos (by decide)
    rw [ofDecimal, ofRatio?_of_near hf hp (hr ▸ h)]
    rfl
  unfold ofScientific
  dsimp only
  rw [if_neg (by simp; omega), if_neg (by omega), hd]

end Pseudocode.Number
