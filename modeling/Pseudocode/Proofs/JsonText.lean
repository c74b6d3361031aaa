import Pseudocode.Json.Reader
import Pseudocode.Json.Writer

/-!
# Texts in JSON

A character is written as itself, with a backslash, or by its code units (`codeUnits`), and these are read from what is
written (`units_escape`). The code units of characters make up these characters again, as no character is half of a pair
(`characters_codeUnits`). So a quoted text is one lexeme, the text (`lexeme_quoted`).
-/

namespace Pseudocode.Json

/-- The code units of a character. -/
def codeUnits (c : Char) : List Nat :=
  if c.toNat < 0x10000 then [c.toNat]
  else [0xd800 + (c.toNat - 0x10000) / 0x400, 0xdc00 + (c.toNat - 0x10000) % 0x400]

/-! ## Characters from code units -/

theorem characters_cons {n : Nat} (h : (isFirstHalf n || isSecondHalf n) = false) (rest : List Nat) :
    characters (n :: rest) = Char.ofNat n :: characters rest := by
  obtain ⟨hf, hs⟩ := Bool.or_eq_false_iff.mp h
  cases rest with
  | nil => simp [characters, hf, hs]
  | cons k rest => simp [characters, hf, hs]

theorem characters_codeUnits (c : Char) (rest : List Nat) :
    characters (codeUnits c ++ rest) = c :: characters rest := by
  have hv := c.valid
  have hn : c.toNat < 0xd800 ∨ 0xdfff < c.toNat ∧ c.toNat < 0x110000 := hv
  unfold codeUnits
  split
  case isTrue h =>
    have hs : (isFirstHalf c.toNat || isSecondHalf c.toNat) = false := by
      simp [isFirstHalf, isSecondHalf]
      omega
    rw [List.singleton_append, characters_cons hs, Char.ofNat_toNat]
  case isFalse h =>
    have hf : isFirstHalf (0xd800 + (c.toNat - 0x10000) / 0x400) = true := by
      simp [isFirstHalf]
      omega
    have hs : isSecondHalf (0xdc00 + (c.toNat - 0x10000) % 0x400) = true := by
      simp [isSecondHalf]
      omega
    have he : 0x10000 + (0xd800 + (c.toNat - 0x10000) / 0x400 - 0xd800) * 0x400 +
        (0xdc00 + (c.toNat - 0x10000) % 0x400 - 0xdc00) = c.toNat := by omega
    rw [List.cons_append, List.singleton_append, characters, hf, hs, he, Char.ofNat_toNat]
    rfl

/-! ## Hexadecimal digits -/

theorem hexDigit?_digitChar : ∀ d < 16, hexDigit? (Nat.digitChar d) = some d := by
  decide

/-- The last digit of a number that is filled up with zeros. -/
theorem hex_succ {k : Nat} (hk : 0 < k) (n : Nat) :
    (Text.hex (k + 1) n).toList = (Text.hex k (n / 16)).toList ++ [Nat.digitChar (n % 16)] := by
  unfold Text.hex
  rw [String.toList_ofList, String.toList_ofList]
  by_cases h : n < 16
  · obtain ⟨k, rfl⟩ := Nat.exists_eq_succ_of_ne_zero (Nat.ne_of_gt hk)
    have hz : Nat.toDigits 16 0 = ['0'] := rfl
    rw [Nat.toDigits_of_lt_base h, Nat.div_eq_of_lt h, Nat.mod_eq_of_lt h, hz]
    simp [List.replicate_succ']
  · rw [Nat.toDigits_of_base_le (by decide) (Nat.le_of_not_lt h), List.length_append, List.length_singleton,
      Nat.add_sub_add_right, List.append_assoc]

/-- A code unit is written with four digits. -/
theorem toList_hex {n : Nat} (h : n < 0x10000) :
    (Text.hex 4 n).toList = [Nat.digitChar (n / 4096), Nat.digitChar (n / 256 % 16), Nat.digitChar (n / 16 % 16),
      Nat.digitChar (n % 16)] := by
  have h1 : (Text.hex 1 (n / 4096)).toList = [Nat.digitChar (n / 4096)] := by
    rw [Text.hex, Nat.toDigits_of_lt_base (by omega), String.toList_ofList]
    rfl
  rw [hex_succ (by decide), hex_succ (by decide), hex_succ (by decide), show n / 16 / 16 = n / 256 by omega,
    show n / 256 / 16 = n / 4096 by omega, h1]
  rfl

theorem hexUnit?_hex {n : Nat} (h : n < 0x10000) :
    hexUnit? (Nat.digitChar (n / 4096)) (Nat.digitChar (n / 256 % 16)) (Nat.digitChar (n / 16 % 16))
      (Nat.digitChar (n % 16)) = some n := by
  have he : (n / 4096 * 16 + n / 256 % 16) * 256 + n / 16 % 16 * 16 + n % 16 = n := by omega
  simp [hexUnit?, hexDigit?_digitChar (n / 4096) (by omega), hexDigit?_digitChar _ (Nat.mod_lt _ (by decide)), he]

/-! ## Escapes -/

/-- What is read of a text goes before what is read of its rest. -/
def joinUnits (ns : List Nat) (size : Nat) (r : Except (Problem × Nat) (List Nat × Nat)) :
    Except (Problem × Nat) (List Nat × Nat) :=
  r.map fun x => (ns ++ x.1, x.2 + size)

theorem units_unitText {n : Nat} (h : n < 0x10000) {rest : List Char} (hr : rest ≠ []) (start pos : Nat) :
    units start pos ((unitText n).toList ++ rest) = joinUnits [n] 6 (units start (pos + 6) rest) := by
  obtain ⟨c, cs, rfl⟩ := List.exists_cons_of_ne_nil hr
  have ht : (unitText n).toList = '\\' :: 'u' :: (Text.hex 4 n).toList := by
    rw [unitText, String.toList_append]
    rfl
  rw [ht, toList_hex h]
  simp only [List.cons_append, List.nil_append]
  rw [units, hexUnit?_hex h]
  cases units start (pos + 6) (c :: cs) <;> rfl

theorem units_pair {c : Char} {n : Nat} (hu : c ≠ 'u') (he : escaped? c = some n) (rest : List Char)
    (start pos : Nat) : units start pos ('\\' :: c :: rest) = joinUnits [n] 2 (units start (pos + 2) rest) := by
  have hb : ¬((c == 'u') = true) := fun h => hu (eq_of_beq h)
  rw [units, if_neg hb, he]
  · cases units start (pos + 2) rest <;> rfl
  · intro _ _ _ _ _ _ h
    exact absurd h hu

theorem units_plain {c : Char} (hq : c ≠ '"') (hb : c ≠ '\\') (hc : ¬c.toNat < 0x20) (rest : List Char)
    (start pos : Nat) : units start pos (c :: rest) = joinUnits [c.toNat] 1 (units start (pos + 1) rest) := by
  rw [units, if_neg hc]
  · cases units start (pos + 1) rest <;> rfl
  · exact hq
  · exact fun h => absurd h hb
  · exact fun _ _ _ _ _ _ h => absurd h hb
  · exact fun _ _ h => absurd h hb

theorem joinUnits_joinUnits (ns ks : List Nat) (a b : Nat) (r : Except (Problem × Nat) (List Nat × Nat)) :
    joinUnits ns a (joinUnits ks b r) = joinUnits (ns ++ ks) (a + b) r := by
  cases r with
  | error e => rfl
  | ok x => simp [joinUnits, Except.map, Nat.add_comm b a, Nat.add_assoc, Nat.add_left_comm]

theorem length_unitText {n : Nat} (h : n < 0x10000) : (unitText n).toList.length = 6 := by
  rw [unitText, String.toList_append, List.length_append, toList_hex h]
  rfl

theorem escaped?_lt {c : Char} {n : Nat} (h : escaped? c = some n) : n < 0x10000 := by
  unfold escaped? at h
  split at h <;> cases h <;> decide

/-- How a character may be written. -/
inductive Spelled (c : Char) : List Char → Prop
  | pair {d : Char} (hu : d ≠ 'u') (he : escaped? d = some c.toNat) : Spelled c ['\\', d]
  | plain (hq : c ≠ '"') (hb : c ≠ '\\') (hc : 0x20 ≤ c.toNat) (hs : c.toNat < 0x10000) : Spelled c [c]
  | unit (hs : c.toNat < 0x10000) : Spelled c (unitText c.toNat).toList
  | halves (hs : ¬c.toNat < 0x10000) :
    Spelled c ((unitText (0xd800 + (c.toNat - 0x10000) / 0x400)).toList ++
      (unitText (0xdc00 + (c.toNat - 0x10000) % 0x400)).toList)

theorem spelled_escape (c : Char) : Spelled c (escape c).toList := by
  have hpair {d k : Char} (hu : d ≠ 'u') (he : escaped? d = some k.toNat) (h : (c == k) = true) :
      Spelled c ['\\', d] := by
    obtain rfl := eq_of_beq h
    exact .pair hu he
  have hcode {d : Char} {k : Nat} (hu : d ≠ 'u') (he : escaped? d = some k) (h : (c.toNat == k) = true) :
      Spelled c ['\\', d] := by
    obtain rfl := eq_of_beq h
    exact .pair hu he
  unfold escape
  dsimp only
  by_cases hq : (c == '"') = true
  · rw [if_pos hq]
    exact hpair (by decide) rfl hq
  by_cases hb : (c == '\\') = true
  · rw [if_neg hq, if_pos hb]
    exact hpair (by decide) rfl hb
  have hq' : c ≠ '"' := fun h => hq (beq_of_eq h)
  have hb' : c ≠ '\\' := fun h => hb (beq_of_eq h)
  rw [if_neg hq, if_neg hb]
  by_cases hn : (c == '\n') = true
  · rw [if_pos hn]
    exact hpair (by decide) rfl hn
  by_cases hr : (c == '\r') = true
  · rw [if_neg hn, if_pos hr]
    exact hpair (by decide) rfl hr
  by_cases ht : (c == '\t') = true
  · rw [if_neg hn, if_neg hr, if_pos ht]
    exact hpair (by decide) rfl ht
  rw [if_neg hn, if_neg hr, if_neg ht]
  by_cases h8 : (c.toNat == 8) = true
  · rw [if_pos h8]
    exact hcode (by decide) rfl h8
  by_cases h12 : (c.toNat == 12) = true
  · rw [if_neg h8, if_pos h12]
    exact hcode (by decide) rfl h12
  rw [if_neg h8, if_neg h12]
  -- What is left is written as it is, or by its code units.
  by_cases hp : (0x20 ≤ c.toNat && c.toNat < 0x7f) = true
  · have hlt : 0x20 ≤ c.toNat ∧ c.toNat < 0x7f := by simpa using hp
    rw [if_pos hp, String.toList_singleton]
    exact .plain hq' hb' hlt.1 (by omega)
  by_cases hd : (c.toNat == 0x7f) = true
  · have hlt : c.toNat = 0x7f := eq_of_beq hd
    rw [if_neg hp, if_pos hd, String.toList_singleton]
    exact .plain hq' hb' (by omega) (by omega)
  rw [if_neg hp, if_neg hd]
  by_cases hu : c.toNat < 0x10000
  · rw [if_pos hu]
    exact .unit hu
  · rw [if_neg hu, String.toList_append]
    exact .halves hu

theorem halves_lt (c : Char) : 0xd800 + (c.toNat - 0x10000) / 0x400 < 0x10000 ∧
    0xdc00 + (c.toNat - 0x10000) % 0x400 < 0x10000 := by
  have hv : c.toNat < 0xd800 ∨ 0xdfff < c.toNat ∧ c.toNat < 0x110000 := c.valid
  omega

/-- The code units of a character are read from what is written for it. -/
theorem Spelled.units {c : Char} {cs : List Char} (h : Spelled c cs) {rest : List Char} (hr : rest ≠ [])
    (start pos : Nat) :
    units start pos (cs ++ rest) = joinUnits (codeUnits c) cs.length (units start (pos + cs.length) rest) := by
  cases h with
  | pair hu he =>
    rw [codeUnits, if_pos (escaped?_lt he)]
    exact units_pair hu he rest start pos
  | plain hq hb hc hs =>
    rw [codeUnits, if_pos hs]
    exact units_plain hq hb (Nat.not_lt.mpr hc) rest start pos
  | unit hs =>
    rw [codeUnits, if_pos hs, length_unitText hs]
    exact units_unitText hs hr start pos
  | halves hs =>
    have ⟨ha, hb⟩ := halves_lt c
    rw [codeUnits, if_neg hs, List.append_assoc, units_unitText ha (List.append_ne_nil_of_right_ne_nil _ hr),
      units_unitText hb hr, joinUnits_joinUnits, List.length_append, length_unitText ha, length_unitText hb]
    rfl

theorem unitText_no_break {n : Nat} (h : n < 0x10000) : '\n' ∉ (unitText n).toList := by
  have hd : ∀ d < 16, Nat.digitChar d ≠ '\n' := by decide
  rw [unitText, String.toList_append, toList_hex h]
  simp [(hd (n / 4096) (by omega)).symm, (hd (n / 256 % 16) (by omega)).symm, (hd (n / 16 % 16) (by omega)).symm,
    (hd (n % 16) (by omega)).symm]

theorem Spelled.no_break {c : Char} {cs : List Char} (h : Spelled c cs) : '\n' ∉ cs := by
  cases h with
  | pair hu he =>
    simp only [List.mem_cons, List.not_mem_nil, or_false, not_or]
    refine ⟨by decide, ?_⟩
    rintro rfl
    cases he
  | plain hq hb hc hs =>
    rw [List.mem_singleton]
    rintro rfl
    exact absurd hc (by decide)
  | unit hs => exact unitText_no_break hs
  | halves hs =>
    have ⟨ha, hb⟩ := halves_lt c
    exact fun hm => (List.mem_append.mp hm).elim (unitText_no_break ha) (unitText_no_break hb)

/-! ## Quoted texts -/

/-- The characters between the quotes of a text. -/
def body (s : List Char) : List Char :=
  s.flatMap fun c => (escape c).toList

theorem toList_quoted (s : String) : (quoted s).toList = '"' :: body s.toList ++ ['"'] := by
  rw [quoted, String.toList_append, String.toList_append, String.toList_join]
  simp [body, List.flatMap_map]

theorem units_body (s rest : List Char) (start pos : Nat) :
    units start pos (body s ++ '"' :: rest) = .ok (s.flatMap codeUnits, (body s).length + 1) := by
  induction s generalizing pos with
  | nil => rfl
  | cons c s ih =>
    rw [body, List.flatMap_cons, List.append_assoc, (spelled_escape c).units (by simp), ← body, ih]
    simp [joinUnits, Except.map, Nat.add_comm, Nat.add_assoc]

theorem characters_flatMap (s : List Char) : characters (s.flatMap codeUnits) = s := by
  induction s with
  | nil => rfl
  | cons c s ih => rw [List.flatMap_cons, characters_codeUnits, ih]

theorem quoted_no_break (s : String) : '\n' ∉ (quoted s).toList := by
  have hb : '\n' ∉ body s.toList := by
    intro hm
    obtain ⟨c, -, hm⟩ := List.mem_flatMap.mp hm
    exact (spelled_escape c).no_break hm
  rw [toList_quoted]
  simp [hb]

/-- A quoted text is the text, whatever comes after it. -/
theorem lexeme_quoted (s : String) (pos : Nat) (rest : List Char) :
    lexeme pos '"' (body s.toList ++ '"' :: rest) = (.text s, (body s.toList).length + 1) := by
  simp only [lexeme, units_body, characters_flatMap, String.ofList_toList]

end Pseudocode.Json
