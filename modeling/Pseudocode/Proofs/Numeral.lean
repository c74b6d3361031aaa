import Mathlib.Data.List.Basic
import Mathlib.Data.List.Induction
import Mathlib.Tactic.Ring
import Pseudocode.Text.Digit

/-!
# Numerals

What a run of decimal digits stands for. The digits of a number stand for that number (`numeral_toDigits`), digits
behind others shift these (`numeral_append`), and zeros in front do not count (`numeral_zeros`).
-/

namespace Pseudocode

theorem stops_at {q : Char → Bool} {cs rest : List Char} (hq : ∀ d ∈ cs, q d = true)
    (hr : ∀ c ∈ rest.head?, q c = false) : (cs ++ rest).takeWhile q = cs ∧ (cs ++ rest).dropWhile q = rest := by
  rw [List.takeWhile_append_of_pos hq, List.dropWhile_append_of_pos hq]
  cases rest with
  | nil => simp
  | cons c rest => simp [hr c rfl]

theorem digitValue?_digit {c : Char} (h : c.isDigit = true) : Text.digitValue? c = some (c.toNat - '0'.toNat) := by
  obtain ⟨h₀, h₉⟩ := Char.isDigit_iff_toNat.1 h
  have h₀ : 48 ≤ c.toNat := h₀
  have h₉ : c.toNat < 58 := Nat.lt_succ_of_le h₉
  rw [Text.digitValue?, Text.digitZeros, List.find?_cons_of_pos (by simp [h₀, h₉])]
  rfl

theorem numeral_toDigits (n : Nat) : Text.numeral (Nat.toDigits 10 n) = n := by
  have hd : ∀ c ∈ Nat.toDigits 10 n, (Text.digitValue? c).getD 0 = c.toNat - '0'.toNat := by
    intro c hc
    rw [digitValue?_digit (Nat.isDigit_of_mem_toDigits (by decide) (by decide) hc)]
    rfl
  calc Text.numeral (Nat.toDigits 10 n)
      = (Nat.toDigits 10 n).foldl (fun m c => 10 * m + (c.toNat - '0'.toNat)) 0 := by
        unfold Text.numeral
        exact List.foldl_ext _ _ _ fun m c hc => by rw [hd c hc]
    _ = n := by rw [← Nat.ofDigitChars_eq_foldl, Nat.ofDigitChars_ten_toDigits]

theorem numeral_append (a b : List Char) :
    Text.numeral (a ++ b) = Text.numeral a * 10 ^ b.length + Text.numeral b := by
  induction b using List.reverseRecOn with
  | nil => simp [Text.numeral]
  | append_singleton b c ih =>
    have hs : ∀ cs : List Char, Text.numeral (cs ++ [c]) = 10 * Text.numeral cs + (Text.digitValue? c).getD 0 := by
      intro cs
      simp [Text.numeral, List.foldl_append]
    rw [← List.append_assoc, hs, hs, ih, List.length_append, List.length_singleton, Nat.pow_succ]
    ring

theorem numeral_zeros (n : Nat) : Text.numeral (List.replicate n '0') = 0 := by
  induction n with
  | zero => rfl
  | succ n ih =>
    rw [List.replicate_succ', numeral_append, ih]
    decide

/-- The digits of a number other than zero do not begin with a zero. -/
theorem head_toDigits {n : Nat} (h : 0 < n) : (Nat.toDigits 10 n).head? ≠ some '0' := by
  induction n using Nat.strongRecOn with
  | _ n ih =>
    by_cases hn : n < 10
    · rw [Nat.toDigits_of_lt_base hn]
      have hs : ∀ n < 10, 0 < n → [n.digitChar].head? ≠ some '0' := by decide
      exact hs n hn h
    · have hne := Nat.toDigits_ne_nil (n := n / 10) (b := 10)
      rw [Nat.toDigits_of_base_le (by decide) (Nat.le_of_not_lt hn), List.head?_append_of_ne_nil _ hne]
      exact ih (n / 10) (by omega) (by omega)

end Pseudocode
