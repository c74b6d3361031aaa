import Mathlib.Algebra.Order.Field.Power
import Mathlib.Data.Int.Log
import Mathlib.Data.Rat.Floor
import Mathlib.Tactic.FieldSimp
import Mathlib.Tactic.Linarith
import Mathlib.Tactic.NormNum
import Pseudocode.Number.Binary

/-!
# The number nearest to a ratio

A finite number other than zero is `m * 2 ^ q`, with 53 bits or, near zero, the least exponent (`Magnitude.Fits`). The
ratios that are rounded to it lie between the halfway points to its neighbours, and these belong to it if `m` is even
(`Magnitude.Near`). Exactly so `ofRatio?` rounds (`ofRatio?_of_near`).
-/

namespace Pseudocode.Number

/-! ## Quotients -/

/-- A rounded quotient is the quotient or the next number. -/
theorem div_of_half {a b m : Nat} (hb : 0 < b) (hl : 2 * (m * b) ≤ 2 * a + b) (hu : 2 * a ≤ 2 * (m * b) + b) :
    m = a / b ∨ m = a / b + 1 := by
  have ha : b * (a / b) + a % b = a := Nat.div_add_mod a b
  have hr : a % b < b := Nat.mod_lt a hb
  rw [Nat.mul_comm m b] at hl hu
  have h1 : a / b ≤ m := by
    by_contra h
    have hm : b * (m + 1) ≤ b * (a / b) := Nat.mul_le_mul_left b (by omega)
    rw [Nat.mul_succ] at hm
    omega
  have h2 : m ≤ a / b + 1 := by
    by_contra h
    have hm : b * (a / b + 2) ≤ b * m := Nat.mul_le_mul_left b (by omega)
    rw [Nat.mul_add] at hm
    omega
  omega

/-- A quotient is rounded to a natural number that is at most a half away, and exactly a half only if it is even. -/
theorem roundDiv_eq {a b m : Nat} (hb : 0 < b) (hl : (m : ℚ) - 1 / 2 ≤ a / b) (hu : (a : ℚ) / b ≤ m + 1 / 2)
    (he : (a : ℚ) / b = m - 1 / 2 ∨ (a : ℚ) / b = m + 1 / 2 → m % 2 = 0) : roundDiv a b = m := by
  have hb' : (0 : ℚ) < b := by exact_mod_cast hb
  -- The three facts as ones about naturals.
  have hl' : 2 * (m * b) ≤ 2 * a + b := by
    rw [le_div_iff₀ hb'] at hl
    have h : (2 * (m * b) : ℚ) ≤ 2 * a + b := by linarith
    exact_mod_cast h
  have hu' : 2 * a ≤ 2 * (m * b) + b := by
    rw [div_le_iff₀ hb'] at hu
    have h : (2 * a : ℚ) ≤ 2 * (m * b) + b := by linarith
    exact_mod_cast h
  have he' : 2 * (m * b) = 2 * a + b ∨ 2 * a = 2 * (m * b) + b → m % 2 = 0 := by
    rintro (h | h)
    · have h' : (2 * (m * b) : ℚ) = 2 * a + b := by exact_mod_cast h
      exact he (.inl ((div_eq_iff hb'.ne').mpr (by linarith)))
    · have h' : (2 * a : ℚ) = 2 * (m * b) + b := by exact_mod_cast h
      exact he (.inr ((div_eq_iff hb'.ne').mpr (by linarith)))
  have ha : b * (a / b) + a % b = a := Nat.div_add_mod a b
  have hm := div_of_half hb hl' hu'
  rw [Nat.mul_comm m b] at hl' hu' he'
  unfold roundDiv
  dsimp only
  rcases hm with rfl | rfl
  · split
    case h_1 => rfl
    case h_2 h => rw [Nat.compare_eq_gt] at h; omega
    case h_3 h =>
      rw [Nat.compare_eq_eq] at h
      have h0 := he' (.inr (by omega))
      rw [h0]
      rfl
  · rw [Nat.mul_succ] at hl' hu' he'
    split
    case h_1 h => rw [Nat.compare_eq_lt] at h; omega
    case h_2 => rfl
    case h_3 h =>
      rw [Nat.compare_eq_eq] at h
      have h0 := he' (.inl (by omega))
      have h1 : (a / b % 2 == 0) = false := by
        rw [beq_eq_false_iff_ne]
        omega
      rw [h1]
      rfl

/-! ## Powers of two -/

theorem two_zpow_pos (q : Int) : (0 : ℚ) < 2 ^ q :=
  zpow_pos (by norm_num) q

theorem shiftLeft_cast (n : Nat) (k : Nat) : ((n <<< k : Nat) : ℚ) = n * 2 ^ k := by
  rw [Nat.shiftLeft_eq]
  push_cast
  rfl

theorem two_zpow_eq {p q : Int} (n : Nat) (h : p = q + n) : (2 : ℚ) ^ p = 2 ^ n * 2 ^ q := by
  rw [h, zpow_add₀ (by norm_num), zpow_natCast, mul_comm]

/-- A power of two as a quotient of two of which one is 1. -/
theorem two_pow_div (q : Int) : (2 : ℚ) ^ (-q).toNat / 2 ^ q.toNat = 2 ^ (-q) := by
  rw [← zpow_natCast, ← zpow_natCast, ← zpow_sub₀ (by norm_num)]
  congr 1
  omega

theorem shiftLeft_div (num den : Nat) (q : Int) :
    ((num <<< (-q).toNat : Nat) : ℚ) / (den <<< q.toNat : Nat) = num / den * 2 ^ (-q) := by
  rw [shiftLeft_cast, shiftLeft_cast, mul_div_mul_comm, two_pow_div]

theorem shiftLeft_pos {n : Nat} (h : 0 < n) (k : Nat) : 0 < n <<< k := by
  rw [Nat.shiftLeft_eq]
  exact Nat.mul_pos h (Nat.two_pow_pos k)

theorem log_of_bounds {r : ℚ} {e : Int} (hr : 0 < r) (hl : 2 ^ e ≤ r) (hu : r < 2 ^ (e + 1)) : Int.log 2 r = e := by
  have h1 := (Int.zpow_le_iff_le_log (b := 2) (by norm_num) hr).mp (by exact_mod_cast hl)
  have h2 := (Int.lt_zpow_iff_log_lt (b := 2) (by norm_num) hr).mp (by exact_mod_cast hu)
  omega

/-- The exponent of a ratio is found from the bits of both. -/
theorem log_eq_of_bits {num den : Nat} (hn : 0 < num) (hd : 0 < den) :
    (if num <<< (-((num.log2 : Int) - den.log2)).toNat < den <<< ((num.log2 : Int) - den.log2).toNat then
      (num.log2 : Int) - den.log2 - 1 else (num.log2 : Int) - den.log2) = Int.log 2 ((num : ℚ) / den) := by
  have hd' : (0 : ℚ) < den := by exact_mod_cast hd
  have hr : (0 : ℚ) < num / den := div_pos (by exact_mod_cast hn) hd'
  have hl : (2 : ℚ) ^ ((num.log2 : Int) - den.log2 - 1) ≤ num / den := by
    have h1 : (2 : ℚ) ^ num.log2 ≤ num := by exact_mod_cast Nat.log2_self_le hn.ne'
    have h2 : (den : ℚ) ≤ 2 ^ (den.log2 + 1) := by exact_mod_cast Nat.lt_log2_self.le
    rw [show (num.log2 : Int) - den.log2 - 1 = (num.log2 : Int) - ((den.log2 + 1 : Nat) : Int) by push_cast; omega,
      zpow_sub₀ (by norm_num), zpow_natCast, zpow_natCast]
    exact div_le_div₀ (by positivity) h1 hd' h2
  have hu : (num : ℚ) / den < 2 ^ ((num.log2 : Int) - den.log2 + 1) := by
    have h1 : (num : ℚ) < 2 ^ (num.log2 + 1) := by exact_mod_cast Nat.lt_log2_self
    have h2 : (2 : ℚ) ^ den.log2 ≤ den := by exact_mod_cast Nat.log2_self_le hd.ne'
    rw [show (num.log2 : Int) - den.log2 + 1 = ((num.log2 + 1 : Nat) : Int) - (den.log2 : Int) by push_cast; omega,
      zpow_sub₀ (by norm_num), zpow_natCast, zpow_natCast]
    exact div_lt_div₀ h1 h2 (by positivity) (by positivity)
  generalize (num.log2 : Int) - den.log2 = g at hl hu ⊢
  have hg : num <<< (-g).toNat < den <<< g.toNat ↔ (num : ℚ) / den < 2 ^ g := by
    have hp : (0 : ℚ) < (den <<< g.toNat : Nat) := by exact_mod_cast shiftLeft_pos hd _
    rw [← Nat.cast_lt (α := ℚ), ← div_lt_one hp, shiftLeft_div, zpow_neg, ← div_eq_mul_inv,
      div_lt_one (two_zpow_pos g)]
  split
  case isTrue h => exact (log_of_bounds hr hl (by rw [sub_add_cancel]; exact hg.mp h)).symm
  case isFalse h => exact (log_of_bounds hr (not_lt.mp fun h' => h (hg.mpr h')) hu).symm

theorem unitExponent_eq {num den : Nat} (hn : 0 < num) (hd : 0 < den) :
    unitExponent num den = max (Int.log 2 ((num : ℚ) / den) - 52) (-1074) := by
  rw [unitExponent, ← log_eq_of_bits hn hd]

/-! ## Magnitudes -/

namespace Magnitude

/-- The magnitudes of finite numbers other than zero. -/
structure Fits (x : Magnitude) : Prop where
  pos : 0 < x.m
  lt : x.m < 2 ^ 53
  low : -1074 ≤ x.q
  high : x.q ≤ 971
  full : 2 ^ 52 ≤ x.m ∨ x.q = -1074
  narrow : x.narrowBelow = true ↔ x.m = 2 ^ 52 ∧ -1074 < x.q

/-- The halfway point below, in quarters of the unit. -/
def below (x : Magnitude) : Nat :=
  if x.narrowBelow then 4 * x.m - 1 else 4 * x.m - 2

/-- A real lies among those that are rounded to a magnitude. -/
structure Near (x : Magnitude) (r : ℚ) : Prop where
  low : x.below * 2 ^ (x.q - 2) ≤ r
  high : r ≤ (4 * x.m + 2 : Nat) * 2 ^ (x.q - 2)
  even : r = x.below * 2 ^ (x.q - 2) ∨ r = (4 * x.m + 2 : Nat) * 2 ^ (x.q - 2) → x.m % 2 = 0

/-- The bits of a magnitude. -/
def bits (x : Magnitude) : Nat :=
  (x.q + 1074).toNat * 2 ^ 52 + x.m

variable {x : Magnitude} {r : ℚ}

theorem Fits.bits_lt (h : x.Fits) : x.bits < 0x7FF0000000000000 := by
  have hm := h.lt
  have hq := h.high
  unfold bits
  omega

theorem below_ge (x : Magnitude) : 4 * x.m - 2 ≤ x.below := by
  unfold below
  split <;> omega

theorem Near.pos (h : x.Near r) (hf : x.Fits) : 0 < r := by
  have hb : 0 < x.below := by
    have h1 := hf.pos
    have h2 := x.below_ge
    omega
  have hb' : (0 : ℚ) < x.below := by exact_mod_cast hb
  exact lt_of_lt_of_le (mul_pos hb' (two_zpow_pos _)) h.low

/-- What is near a magnitude, rounded in its own unit. -/
theorem Near.scaled (h : x.Near r) :
    (x.m : ℚ) - 1 / 2 ≤ r * 2 ^ (-x.q) ∧ r * 2 ^ (-x.q) ≤ x.m + 1 / 2 ∧
      (r * 2 ^ (-x.q) = x.m - 1 / 2 ∨ r * 2 ^ (-x.q) = x.m + 1 / 2 → x.m % 2 = 0) := by
  have hu : (2 : ℚ) ^ (x.q - 2) * 2 ^ (-x.q) = 1 / 4 := by
    rw [← zpow_add₀ (by norm_num), show x.q - 2 + -x.q = -2 by omega]
    norm_num
  have hp := two_zpow_pos (-x.q)
  have hb : (4 * x.m - 2 : ℚ) ≤ x.below := by
    have h1 := x.below_ge
    have h2 : 4 * x.m ≤ x.below + 2 := by omega
    have h3 : (4 * x.m : ℚ) ≤ x.below + 2 := by exact_mod_cast h2
    linarith
  have hl : x.below * (1 / 4) ≤ r * 2 ^ (-x.q) := by
    rw [← hu, ← mul_assoc]
    exact mul_le_mul_of_nonneg_right h.low hp.le
  have hh : r * 2 ^ (-x.q) ≤ (4 * x.m + 2 : Nat) * (1 / 4) := by
    rw [← hu, ← mul_assoc]
    exact mul_le_mul_of_nonneg_right h.high hp.le
  have hcancel : ∀ a : ℚ, r * 2 ^ (-x.q) = a * (1 / 4) → r = a * 2 ^ (x.q - 2) := by
    intro a ha
    rw [← hu, ← mul_assoc] at ha
    exact mul_right_cancel₀ hp.ne' ha
  push_cast at hh
  refine ⟨by linarith, by linarith, ?_⟩
  rintro (he | he)
  · -- Only the halfway point itself is that far below.
    have hbe : (x.below : ℚ) = 4 * x.m - 2 := by linarith
    exact h.even (.inl (hcancel _ (by linarith)))
  · exact h.even (.inr (hcancel _ (by push_cast; linarith)))

theorem Near.lt_high (h : x.Near r) (hf : x.Fits) : r < 2 ^ (x.q + 52 + 1) := by
  have hm : (x.m : ℚ) ≤ 2 ^ 53 - 1 := by
    have h1 := hf.lt
    have h2 : x.m + 1 ≤ 2 ^ 53 := by omega
    have h3 : (x.m + 1 : ℚ) ≤ 2 ^ 53 := by exact_mod_cast h2
    linarith
  have hq : (2 : ℚ) ^ (x.q + 52 + 1) = 2 ^ 55 * 2 ^ (x.q - 2) := two_zpow_eq 55 (by omega)
  have hp := two_zpow_pos (x.q - 2)
  have hh := h.high
  push_cast at hh
  rw [hq]
  refine lt_of_le_of_lt hh (mul_lt_mul_of_pos_right ?_ hp)
  linarith

/-- The unit of a magnitude is the one in which what is near it is rounded, unless it is below a power of two. -/
theorem Near.unit (h : x.Near r) (hf : x.Fits) (hl : 2 ^ (x.q + 52) ≤ r ∨ x.q = -1074) :
    max (Int.log 2 r - 52) (-1074) = x.q := by
  have hr := h.pos hf
  rcases le_or_gt ((2 : ℚ) ^ (x.q + 52)) r with hle | hlt
  · rw [log_of_bounds hr hle (h.lt_high hf)]
    have hq := hf.low
    omega
  · rcases hl with hl | hl
    · exact absurd hl (not_le.mpr hlt)
    · have h2 := (Int.lt_zpow_iff_log_lt (b := 2) (by norm_num) hr).mp (by exact_mod_cast hlt)
      omega

/-- Below a power of two the unit is half of it, and there the power of two has one bit more. -/
theorem Near.half (h : x.Near r) (hf : x.Fits) (hl : r < 2 ^ (x.q + 52)) (hq : -1074 < x.q) :
    x.m = 2 ^ 52 ∧ max (Int.log 2 r - 52) (-1074) = x.q - 1 ∧ (2 ^ 53 : ℚ) - 1 / 2 ≤ r * 2 ^ (-(x.q - 1)) ∧
      r * 2 ^ (-(x.q - 1)) ≤ 2 ^ 53 := by
  have hr := h.pos hf
  have hp := two_zpow_pos (x.q - 2)
  have hpow : (2 : ℚ) ^ (x.q + 52) = 2 ^ 54 * 2 ^ (x.q - 2) := two_zpow_eq 54 (by omega)
  have hm : x.m = 2 ^ 52 := by
    have hlow := lt_of_le_of_lt h.low hl
    rw [hpow, mul_lt_mul_iff_left₀ hp] at hlow
    have hlow' : x.below < 2 ^ 54 := by exact_mod_cast hlow
    have h1 := x.below_ge
    have h2 := hf.full
    omega
  have hb : x.below = 2 ^ 54 - 1 := by
    have hn := hf.narrow.mpr ⟨hm, hq⟩
    rw [below, if_pos hn, hm]
    norm_num
  have hlow : (2 ^ 54 - 1) * (2 : ℚ) ^ (x.q - 2) ≤ r := by
    have h1 := h.low
    rw [hb] at h1
    norm_num at h1 ⊢
    exact h1
  have hu : (2 : ℚ) ^ (x.q - 2) * 2 ^ (-(x.q - 1)) = 1 / 2 := by
    rw [← zpow_add₀ (by norm_num), show x.q - 2 + -(x.q - 1) = -1 by omega]
    norm_num
  have hp' := two_zpow_pos (-(x.q - 1))
  refine ⟨hm, ?_, ?_, ?_⟩
  · have h51 : (2 : ℚ) ^ (x.q + 51) ≤ r := by
      have h2 : (2 : ℚ) ^ (x.q + 51) = 2 ^ 53 * 2 ^ (x.q - 2) := two_zpow_eq 53 (by omega)
      rw [h2]
      refine le_trans (mul_le_mul_of_nonneg_right ?_ hp.le) hlow
      norm_num
    rw [log_of_bounds hr h51 (by rw [add_assoc]; exact hl)]
    omega
  · have h1 := mul_le_mul_of_nonneg_right hlow hp'.le
    rw [mul_assoc, hu] at h1
    linarith
  · have h1 := mul_le_mul_of_nonneg_right hl.le hp'.le
    rw [hpow, mul_assoc, hu] at h1
    linarith

end Magnitude

/-- A ratio is rounded to the magnitude that it is near. -/
theorem ofRatio?_of_near {x : Magnitude} {num den : Nat} (hf : x.Fits) (hd : 0 < den) (h : x.Near (num / den)) :
    ofRatio? num den = some (Float.ofBits x.bits.toUInt64) := by
  have hn : 0 < num := by
    have hr := h.pos hf
    rcases Nat.eq_zero_or_pos num with rfl | hn
    · simp at hr
    · exact hn
  have hbits : (unitExponent num den + 1074).toNat <<< 52 +
      roundDiv (num <<< (-unitExponent num den).toNat) (den <<< (unitExponent num den).toNat) = x.bits := by
    rw [unitExponent_eq hn hd, Nat.shiftLeft_eq]
    by_cases hl : 2 ^ (x.q + 52) ≤ (num : ℚ) / den ∨ x.q = -1074
    · obtain ⟨h1, h2, h3⟩ := h.scaled
      rw [← shiftLeft_div] at h1 h2 h3
      rw [h.unit hf hl, roundDiv_eq (shiftLeft_pos hd _) h1 h2 h3]
      rfl
    · rw [not_or, not_le] at hl
      have hq := hf.low
      obtain ⟨hm, hu, h1, h2⟩ := h.half hf hl.1 (by omega)
      rw [← shiftLeft_div] at h1 h2
      have hround := roundDiv_eq (m := 2 ^ 53) (shiftLeft_pos hd (x.q - 1).toNat) (by exact_mod_cast h1)
        (by push_cast; linarith) (fun _ => by decide)
      rw [hu, hround, Magnitude.bits, hm]
      omega
  unfold ofRatio?
  rw [if_neg (by simp; omega)]
  dsimp only
  rw [hbits, if_pos hf.bits_lt]

end Pseudocode.Number
