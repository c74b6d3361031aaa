import Pseudocode.Json.Reader
import Pseudocode.Json.Writer
import Pseudocode.Proofs.Numeral
import Pseudocode.Proofs.Shortest

/-!
# Numbers in JSON text

A number with a fraction or an exponent is a whole part, perhaps a point with digits and perhaps a power of ten
(`Spells`), and is read as the decimal of these (`number?_spells`). The layout of a decimal is such a text with the same
value (`layout_spells`). So the text of any number, in whatever way it is laid out, is read as that number
(`lexes_real`), and that of a whole number as that one (`lexes_whole`).
-/

namespace Pseudocode.Json

open Number Text

/-- What may follow a value in JSON text. -/
def Closing (rest : List Char) : Prop :=
  ∀ c ∈ rest.head?, c = ',' ∨ c = ']' ∨ c = '\x7d'

theorem Closing.head_ne {rest : List Char} (h : Closing rest) {c : Char} (hc : c ≠ ',' ∧ c ≠ ']' ∧ c ≠ '\x7d')
    (more : List Char) : rest ≠ c :: more := by
  rintro rfl
  rcases h c rfl with rfl | rfl | rfl
  · exact hc.1 rfl
  · exact hc.2.1 rfl
  · exact hc.2.2 rfl

theorem Closing.no_digit {rest : List Char} (h : Closing rest) : ∀ c ∈ rest.head?, isPlainDigit c = false := by
  intro c hc
  rcases h c hc with rfl | rfl | rfl <;> decide

/-! ## The parts of a number -/

/-- Digits only. -/
def Digits (cs : List Char) : Prop :=
  ∀ c ∈ cs, isPlainDigit c = true

theorem isPlainDigit_eq (c : Char) : isPlainDigit c = c.isDigit :=
  rfl

theorem digits_toDigits (n : Nat) : Digits (Nat.toDigits 10 n) := fun _ hc =>
  (isPlainDigit_eq _).trans (Nat.isDigit_of_mem_toDigits (by decide) (by decide) hc)

theorem digits_zeros (n : Nat) : Digits (List.replicate n '0') := fun c hc => by
  rw [List.eq_of_mem_replicate hc]
  decide

theorem Digits.append {a b : List Char} (ha : Digits a) (hb : Digits b) : Digits (a ++ b) := fun c hc =>
  (List.mem_append.mp hc).elim (ha c) (hb c)

/-- The whole part of a number: a zero, or digits that begin with none. -/
def Whole (w : List Char) : Prop :=
  w = ['0'] ∨ Digits w ∧ w ≠ [] ∧ w.head? ≠ some '0'

/-- A fraction with its point. -/
def pointed (f : List Char) : List Char :=
  if f = [] then [] else '.' :: f

/-- A power of ten, or none. -/
inductive Power : List Char → Int → Prop
  | none : Power [] 0
  | plus (p : List Char) (hp : p ≠ []) (hd : Digits p) : Power ('e' :: '+' :: p) (numeral p)
  | minus (p : List Char) (hp : p ≠ []) (hd : Digits p) : Power ('e' :: '-' :: p) (-(numeral p : Int))

/-- The text of a number that is not whole, with its digits and its exponent. -/
inductive Spells : List Char → Nat → Int → Prop
  | mk (w f p : List Char) (e : Int) (hw : Whole w) (hf : Digits f) (hp : Power p e) (hne : f ≠ [] ∨ p ≠ []) :
      Spells (w ++ (pointed f ++ p)) (numeral (w ++ f)) (e - f.length)

theorem wholePart_append {w rest : List Char} (hw : Whole w) (hr : ∀ c ∈ rest.head?, isPlainDigit c = false) :
    wholePart (w ++ rest) = w := by
  rcases hw with rfl | ⟨hd, hne, h0⟩
  · rfl
  · obtain ⟨c, cs, rfl⟩ := List.exists_cons_of_ne_nil hne
    rw [List.cons_append, wholePart]
    · exact (stops_at hd hr).1
    · intro more hc
      cases hc
      exact h0 rfl

theorem fractionPart_append {f rest : List Char} (hf : Digits f) (hr : ∀ c ∈ rest.head?, isPlainDigit c = false)
    (hp : ∀ more, rest ≠ '.' :: more) : fractionPart (pointed f ++ rest) = f := by
  unfold pointed
  split
  case isTrue h =>
    rw [h, List.nil_append, fractionPart]
    exact hp
  case isFalse h => exact (stops_at hf hr).1

theorem exponentPart?_append {p rest : List Char} {e : Int} (hp : Power p e) (hr : Closing rest) :
    exponentPart? (p ++ rest) = if p = [] then none else some (e, p.length) := by
  cases hp with
  | none =>
    rw [if_pos rfl, List.nil_append]
    cases rest with
    | nil => rfl
    | cons c rest =>
      have hc : (c == 'e' || c == 'E') = false := by
        rcases hr c rfl with rfl | rfl | rfl <;> decide
      unfold exponentPart?
      simp [hc]
  | plus p hne hd =>
    unfold exponentPart?
    simp [(stops_at hd hr.no_digit).1, hne]
    omega
  | minus p hne hd =>
    unfold exponentPart?
    simp [(stops_at hd hr.no_digit).1, hne]
    omega

theorem Power.no_digit {p rest : List Char} {e : Int} (hp : Power p e) (hr : Closing rest) :
    (∀ c ∈ (p ++ rest).head?, isPlainDigit c = false) ∧ ∀ more, p ++ rest ≠ '.' :: more := by
  cases hp with
  | none => exact ⟨hr.no_digit, hr.head_ne (by decide)⟩
  | plus | minus => simp [isPlainDigit]

/-- A number that is not whole is read as its decimal. -/
theorem number?_spells {cs rest : List Char} {n : Nat} {e : Int} (h : Spells cs n e) (hr : Closing rest)
    (negative : Bool) :
    number? negative (cs ++ rest) = some (.plain (.real (withSign negative (ofScientific n e))), cs.length) := by
  obtain ⟨w, f, p, e, hw, hf, hp, hne⟩ := h
  obtain ⟨hd, hpoint⟩ := hp.no_digit hr
  have hdigit : ∀ c ∈ (pointed f ++ (p ++ rest)).head?, isPlainDigit c = false := by
    unfold pointed
    split
    · exact hd
    · simp [isPlainDigit]
  have hlen : (if f.isEmpty then 0 else 1 + f.length) = (pointed f).length := by
    cases f <;> simp [pointed, Nat.add_comm]
  have hw0 : w.isEmpty = false := by
    rcases hw with rfl | ⟨-, h, -⟩
    · rfl
    · simpa using h
  have hwhole : (f.isEmpty && (if p = [] then none else some (e, p.length)).isNone) = false := by
    rcases hne with hne | hne
    · simp [hne]
    · simp [hne]
  have he : ((if p = [] then none else some (e, p.length)).map (·.1)).getD 0 = e := by
    cases hp <;> rfl
  have hsize : ((if p = [] then none else some (e, p.length)).map (·.2)).getD 0 = p.length := by
    cases hp <;> rfl
  rw [List.append_assoc, List.append_assoc]
  unfold number?
  simp only [wholePart_append hw hdigit, List.drop_left, fractionPart_append hf hd hpoint, hlen,
    exponentPart?_append hp hr, hw0, hwhole, he, hsize, List.length_append, Nat.add_assoc]
  rfl

/-- A whole number is read as that number. -/
theorem number?_whole {n : Nat} {rest : List Char} (hn : (Nat.toDigits 10 n).length ≤ digitLimit) (hr : Closing rest)
    (negative : Bool) :
    number? negative (Nat.toDigits 10 n ++ rest) =
      some (.plain (.whole (if negative then -(n : Int) else n)), (Nat.toDigits 10 n).length) := by
  have hw : Whole (Nat.toDigits 10 n) := by
    rcases Nat.eq_zero_or_pos n with rfl | h
    · exact .inl rfl
    · exact .inr ⟨digits_toDigits n, Nat.toDigits_ne_nil, head_toDigits h⟩
  have hf : fractionPart rest = [] :=
    fractionPart_append (f := []) (fun _ h => by cases h) hr.no_digit (hr.head_ne (by decide))
  have he : exponentPart? rest = none := exponentPart?_append .none hr
  unfold number?
  simp [wholePart_append hw hr.no_digit, hf, he, numeral_toDigits, Nat.not_lt.mpr hn]

/-! ## Layouts -/

section

variable {ds : List Char} (hds : Digits ds) (hne : ds ≠ []) (h0 : ds.head? ≠ some '0')

include hds hne h0

theorem spells_zeros (k : Nat) :
    Spells (ds ++ List.replicate k '0' ++ ['.', '0']) (numeral ds * 10 ^ (k + 1)) (-1) := by
  have hw : Whole (ds ++ List.replicate k '0') := by
    obtain ⟨c, cs, rfl⟩ := List.exists_cons_of_ne_nil hne
    exact .inr ⟨hds.append (digits_zeros k), by simp, h0⟩
  have hn : numeral (ds ++ List.replicate k '0' ++ ['0']) = numeral ds * 10 ^ (k + 1) := by
    rw [← List.replicate_one, List.append_assoc, List.replicate_append_replicate, numeral_append, numeral_zeros,
      List.length_replicate, Nat.add_zero]
  rw [← hn]
  exact .mk _ ['0'] [] 0 hw (digits_zeros 1) .none (.inl (by simp))

theorem spells_point {k : Nat} (hk : 0 < k) (hl : k < ds.length) :
    Spells (ds.take k ++ '.' :: ds.drop k) (numeral ds) (k - ds.length) := by
  have hw : Whole (ds.take k) := by
    obtain ⟨c, cs, rfl⟩ := List.exists_cons_of_ne_nil hne
    refine .inr ⟨fun c hc => hds c (List.mem_of_mem_take hc), by simp; omega, ?_⟩
    rw [List.head?_take, if_neg (by omega)]
    exact h0
  have hf : ds.drop k ≠ [] := by
    rw [Ne, List.drop_eq_nil_iff]
    omega
  have h : Spells (ds.take k ++ (pointed (ds.drop k) ++ [])) (numeral (ds.take k ++ ds.drop k))
      (0 - (ds.drop k).length) :=
    .mk _ _ [] 0 hw (fun c hc => hds c (List.mem_of_mem_drop hc)) .none (.inl hf)
  rw [pointed, if_neg hf, List.append_nil, List.take_append_drop, List.length_drop] at h
  rw [show (k : Int) - ds.length = 0 - ((ds.length - k : Nat) : Int) by omega]
  exact h

omit h0 in
theorem spells_small (k : Nat) :
    Spells ('0' :: '.' :: (List.replicate k '0' ++ ds)) (numeral ds) (-(k + ds.length : Int)) := by
  have hf : List.replicate k '0' ++ ds ≠ [] := by simp [hne]
  have hn : numeral (['0'] ++ (List.replicate k '0' ++ ds)) = numeral ds := by
    rw [← List.append_assoc, ← List.replicate_one, List.replicate_append_replicate, numeral_append, numeral_zeros,
      Nat.zero_mul, Nat.zero_add]
  have h : Spells (['0'] ++ (pointed (List.replicate k '0' ++ ds) ++ []))
      (numeral (['0'] ++ (List.replicate k '0' ++ ds))) (0 - (List.replicate k '0' ++ ds).length) :=
    .mk _ _ [] 0 (.inl rfl) ((digits_zeros k).append hds) .none (.inl hf)
  rw [pointed, if_neg hf, List.append_nil, hn, List.length_append, List.length_replicate] at h
  rw [show -(k + ds.length : Int) = 0 - ((k + ds.length : Nat) : Int) by omega]
  exact h

theorem spells_power {p : List Char} {e : Int} (hp : Power p e) (hpe : p ≠ []) :
    Spells (ds.take 1 ++ (pointed (ds.drop 1) ++ p)) (numeral ds) (e - (ds.length - 1 : Int)) := by
  obtain ⟨c, cs, rfl⟩ := List.exists_cons_of_ne_nil hne
  have h : Spells ([c] ++ (pointed cs ++ p)) (numeral ([c] ++ cs)) (e - cs.length) :=
    .mk [c] cs p e (.inr ⟨fun d hd => hds d (by simp_all), by simp, h0⟩)
      (fun d hd => hds d (List.mem_cons_of_mem c hd)) hp (.inr hpe)
  rw [List.length_cons, Nat.cast_succ, Int.add_sub_cancel]
  exact h

end

/-- An exponent with its sign and at least two digits. -/
theorem power_lead (lead : Int) (k : Nat) :
    Power ('e' :: (if lead < 0 then '-' else '+') :: (List.replicate k '0' ++ Nat.toDigits 10 lead.natAbs)) lead := by
  have hp : List.replicate k '0' ++ Nat.toDigits 10 lead.natAbs ≠ [] := by simp
  have hd := (digits_zeros k).append (digits_toDigits lead.natAbs)
  have hn : numeral (List.replicate k '0' ++ Nat.toDigits 10 lead.natAbs) = lead.natAbs := by
    rw [numeral_append, numeral_zeros, numeral_toDigits, Nat.zero_mul, Nat.zero_add]
  split_ifs with h
  · have hm := Power.minus _ hp hd
    rw [hn, show -(lead.natAbs : Int) = lead by omega] at hm
    exact hm
  · have hm := Power.plus _ hp hd
    rw [hn, show (lead.natAbs : Int) = lead by omega] at hm
    exact hm

theorem toList_toString (n : Nat) : (toString n).toList = Nat.toDigits 10 n := by
  rw [Nat.toString_eq_ofList_toDigits, String.toList_ofList]

/-- The layout of a decimal other than zero is the text of a number with the same value. -/
theorem layout_spells (style : DecimalStyle) {d : Decimal} (hd : 0 < d.digits) :
    ∃ n e, Spells (style.layout d).toList n e ∧ (n : ℚ) * 10 ^ e = d.value ∧ min d.exp (-1) ≤ e := by
  have hs := toList_toString d.digits
  have hds := digits_toDigits d.digits
  have hne := Nat.toDigits_ne_nil (n := d.digits) (b := 10)
  have h0 := head_toDigits hd
  have hnum := numeral_toDigits d.digits
  have hpos := List.length_pos_iff.mpr hne
  unfold DecimalStyle.layout
  simp only [← String.length_toList, hs]
  generalize Nat.toDigits 10 d.digits = ds at *
  -- The plain layouts have their point behind the digits, between them or before them; the other has a power of ten.
  by_cases hplain : style.plainFrom ≤ d.exp + ds.length - 1 ∧ d.exp + ds.length - 1 < style.plainBelow
  · rw [if_pos hplain]
    by_cases hexp : 0 ≤ d.exp
    · have hv : ((d.digits * 10 ^ (d.exp.toNat + 1) : Nat) : ℚ) * 10 ^ (-1 : Int) = d.value := by
        have hz : (10 : ℚ) ^ d.exp = 10 ^ d.exp.toNat := by
          rw [← zpow_natCast, Int.toNat_of_nonneg hexp]
        rw [Decimal.value, hz]
        push_cast
        rw [pow_succ]
        norm_num
        ring
      rw [if_pos hexp]
      refine ⟨d.digits * 10 ^ (d.exp.toNat + 1), -1, ?_, hv, min_le_right _ _⟩
      have h := spells_zeros hds hne h0 d.exp.toNat
      rw [hnum] at h
      simp only [String.toList_append, zeros, String.toList_ofList, hs]
      exact h
    · rw [if_neg hexp]
      by_cases hlead : 0 ≤ d.exp + ds.length - 1
      · rw [if_pos hlead]
        refine ⟨d.digits, d.exp, ?_, rfl, min_le_left _ _⟩
        have h := spells_point hds hne h0 (k := (d.exp + ds.length - 1).toNat + 1) (by omega) (by omega)
        rw [hnum, show (((d.exp + ds.length - 1).toNat + 1 : Nat) : Int) - ds.length = d.exp by omega] at h
        simp only [String.toList_append, String.toList_ofList, List.append_assoc]
        exact h
      · rw [if_neg hlead]
        refine ⟨d.digits, d.exp, ?_, rfl, min_le_left _ _⟩
        have h := spells_small hds hne ((-(d.exp + ds.length - 1)).toNat - 1)
        rw [hnum, show -((((-(d.exp + ds.length - 1)).toNat - 1 : Nat) : Int) + ds.length) = d.exp by omega] at h
        simp only [String.toList_append, zeros, String.toList_ofList, hs, List.append_assoc]
        exact h
  · rw [if_neg hplain]
    refine ⟨d.digits, d.exp, ?_, rfl, min_le_left _ _⟩
    have hp := power_lead (d.exp + ds.length - 1) (2 - (Nat.toDigits 10 (d.exp + ds.length - 1).natAbs).length)
    have h := spells_power hds hne h0 hp (by simp)
    rw [hnum, show d.exp + ds.length - 1 - (ds.length - 1 : Int) = d.exp by omega] at h
    have ht : (if (String.ofList (ds.drop 1)).isEmpty = true then "" else "." ++ String.ofList (ds.drop 1)).toList =
        pointed (ds.drop 1) := by
      cases hdrop : ds.drop 1 with
      | nil => rfl
      | cons c cs => simp [pointed]
    have hsign : (if d.exp + ds.length - 1 < 0 then "-" else "+" : String).toList =
        [if d.exp + ds.length - 1 < 0 then '-' else '+'] := by
      split <;> rfl
    simp only [String.toList_append, zeros, String.toList_ofList, toList_toString, ht, hsign, List.append_assoc]
    exact h

/-! ## Lexemes -/

/-- A text is one lexeme, whatever may follow it. -/
def Lexes (cs : List Char) (l : Lexeme) : Prop :=
  ∀ pos rest, Closing rest → ∃ c more, cs = c :: more ∧ isGap c = false ∧ lexeme pos c (more ++ rest) = (l, more.length)

theorem ne_of_digit {c d : Char} (hc : isPlainDigit c = true) (hd : isPlainDigit d = false) : (d == c) = false := by
  rw [beq_eq_false_iff_ne]
  rintro rfl
  rw [hc] at hd
  cases hd

theorem isGap_digit {c : Char} (hc : isPlainDigit c = true) : isGap c = false := by
  unfold isGap
  rw [BEq.comm, ne_of_digit hc (by decide), BEq.comm, ne_of_digit hc (by decide), BEq.comm,
    ne_of_digit hc (by decide), BEq.comm, ne_of_digit hc (by decide)]
  rfl

/-- A digit begins a number. -/
theorem lexeme_digit {c : Char} {rest : List Char} {l : Lexeme} {size : Nat} (hc : isPlainDigit c = true)
    (h : number? false (c :: rest) = some (l, size)) (pos : Nat) : lexeme pos c rest = (l, size - 1) := by
  have hn := ne_of_digit hc (d := 'n') (by decide)
  have ht := ne_of_digit hc (d := 't') (by decide)
  have hf := ne_of_digit hc (d := 'f') (by decide)
  have hN := ne_of_digit hc (d := 'N') (by decide)
  have hI := ne_of_digit hc (d := 'I') (by decide)
  have hm := ne_of_digit hc (d := '-') (by decide)
  have hm' : (c == '-') = false := (BEq.comm ..).trans hm
  unfold lexeme
  split
  case h_8 => simp [words, List.find?, List.isPrefixOf, hn, ht, hf, hN, hI, hm, hm', h]
  all_goals cases hc

/-- A minus sign and a digit begin a number. -/
theorem lexeme_minus {c : Char} {rest : List Char} {l : Lexeme} {size : Nat} (hc : isPlainDigit c = true)
    (h : number? true (c :: rest) = some (l, size)) (pos : Nat) : lexeme pos '-' (c :: rest) = (l, size) := by
  have hI := ne_of_digit hc (d := 'I') (by decide)
  unfold lexeme
  simp [words, List.find?, List.isPrefixOf, hI, h]

/-- A number is one lexeme, with a minus sign before it or without. -/
theorem lexes_number {cs : List Char} {l : Bool → Lexeme} (hc : ∃ c ∈ cs.head?, isPlainDigit c = true)
    (h : ∀ rest, Closing rest → ∀ negative, number? negative (cs ++ rest) = some (l negative, cs.length))
    (negative : Bool) : Lexes (if negative then '-' :: cs else cs) (l negative) := by
  obtain ⟨c, hh, hc⟩ := hc
  obtain ⟨more, rfl⟩ := List.head?_eq_some_iff.mp hh
  intro pos rest hr
  cases negative with
  | false => exact ⟨c, more, rfl, isGap_digit hc, lexeme_digit hc (h rest hr false) pos⟩
  | true => exact ⟨'-', c :: more, rfl, by decide, lexeme_minus hc (h rest hr true) pos⟩

theorem Spells.head {cs : List Char} {n : Nat} {e : Int} (h : Spells cs n e) :
    ∃ c ∈ cs.head?, isPlainDigit c = true := by
  obtain ⟨w, f, p, e, hw, -, -, -⟩ := h
  rcases hw with rfl | ⟨hd, hne, -⟩
  · exact ⟨'0', rfl, by decide⟩
  · obtain ⟨c, cs, rfl⟩ := List.exists_cons_of_ne_nil hne
    exact ⟨c, rfl, hd c (by simp)⟩

theorem lexes_spells {cs : List Char} {n : Nat} {e : Int} (h : Spells cs n e) (negative : Bool) :
    Lexes (if negative then '-' :: cs else cs) (.plain (.real (withSign negative (ofScientific n e)))) :=
  lexes_number (l := fun negative => .plain (.real (withSign negative (ofScientific n e)))) h.head
    (fun _ hr negative => number?_spells h hr negative) negative

theorem toList_toString_int (n : Int) :
    (toString n).toList = if decide (n < 0) then '-' :: Nat.toDigits 10 n.natAbs else Nat.toDigits 10 n.natAbs := by
  cases n with
  | ofNat n => exact toList_toString n
  | negSucc n =>
    have hs : toString (Int.negSucc n) = "-" ++ toString (n + 1) := rfl
    rw [hs, String.toList_append, toList_toString, decide_eq_true (Int.negSucc_lt_zero n)]
    rfl

/-- The text of a whole number is read as that number. -/
theorem lexes_whole {n : Int} (h : (Nat.toDigits 10 n.natAbs).length ≤ digitLimit) :
    Lexes (toString n).toList (.plain (.whole n)) := by
  have hc : ∃ c ∈ (Nat.toDigits 10 n.natAbs).head?, isPlainDigit c = true := by
    obtain ⟨c, cs, hcs⟩ := List.exists_cons_of_ne_nil (Nat.toDigits_ne_nil (n := n.natAbs) (b := 10))
    exact ⟨c, by rw [hcs]; rfl, digits_toDigits n.natAbs c (by rw [hcs]; simp)⟩
  have hl := lexes_number (l := fun negative => .plain (.whole (if negative then -(n.natAbs : Int) else n.natAbs))) hc
    (fun _ hr negative => number?_whole h hr negative) (decide (n < 0))
  have hn : (if decide (n < 0) = true then -(n.natAbs : Int) else n.natAbs) = n := by
    split
    case isTrue h =>
      have hn := of_decide_eq_true h
      omega
    case isFalse h =>
      have hn := of_decide_eq_false (Bool.eq_false_iff.mpr h)
      omega
  rw [hn] at hl
  rw [toList_toString_int]
  exact hl

/-- The words for what has no digits. -/
theorem lexes_nan : Lexes "NaN".toList (.plain (.real (0.0 / 0.0))) := by
  intro pos rest _
  exact ⟨'N', "aN".toList, rfl, by decide, rfl⟩

theorem lexes_infinity (negative : Bool) :
    Lexes (if negative then '-' :: "Infinity".toList else "Infinity".toList)
      (.plain (.real (withSign negative infinity))) := by
  intro pos rest _
  cases negative with
  | false => exact ⟨'I', "nfinity".toList, rfl, by decide, rfl⟩
  | true => exact ⟨'-', "Infinity".toList, rfl, by decide, rfl⟩

theorem toList_signed (negative : Bool) (s : String) :
    ((if negative then "-" else "") ++ s).toList = if negative then '-' :: s.toList else s.toList := by
  cases negative <;> simp

/-- The text of a number that has digits: it stands for that number. -/
theorem write_spells {x : Float} (hn : x.isNaN = false) (hi : x.isInf = false) :
    ∃ cs n e, Spells cs n e ∧ (numberStyle.write x).toList = (if isNegative x then '-' :: cs else cs) ∧
      withSign (isNegative x) (ofScientific n e) = x := by
  have hn' : ¬x.isNaN = true := Bool.not_eq_true _ ▸ hn
  have hi' : ¬x.isInf = true := Bool.not_eq_true _ ▸ hi
  unfold DecimalStyle.write
  rw [if_neg hn']
  dsimp only
  rw [toList_signed, if_neg hi']
  by_cases h0 : (magnitude x).m = 0
  · have hz : Spells "0.0".toList 0 (-1) := .mk ['0'] ['0'] [] 0 (.inl rfl) (digits_zeros 1) .none (.inl (by simp))
    have hc : ((magnitude x).m == 0) = true := beq_iff_eq.mpr h0
    rw [if_pos hc]
    exact ⟨_, _, _, hz, rfl, (eq_zero hn h0).symm⟩
  · obtain ⟨hf, hb⟩ := magnitude_fits hn hi h0
    obtain ⟨hnear, hexp⟩ := Magnitude.shortest_near hf
    have hd : 0 < (magnitude x).shortest.digits := by
      have hp := hnear.pos hf
      rcases Nat.eq_zero_or_pos (magnitude x).shortest.digits with hz | hz
      · rw [Decimal.value, hz] at hp
        simp at hp
      · exact hz
    obtain ⟨n, e, hs, hv, he⟩ := layout_spells numberStyle hd
    -- The shortest digits are near enough to the number, and the text laid out from them has the same value.
    have hx : withSign (isNegative x) (ofScientific n e) = x := by
      rw [ofScientific_of_near hf (by omega) (hv ▸ hnear), hb, withSign_size hn]
    have hc : ¬((magnitude x).m == 0) = true := fun hc => h0 (beq_iff_eq.mp hc)
    rw [if_neg hc]
    exact ⟨_, n, e, hs, rfl, hx⟩

/-- The texts for what has no digits. -/
theorem write_nan {x : Float} (hn : x.isNaN = true) : numberStyle.write x = "NaN" := by
  rw [DecimalStyle.write, if_pos hn]
  rfl

theorem write_infinity {x : Float} (hn : x.isNaN = false) (hi : x.isInf = true) :
    (numberStyle.write x).toList = if isNegative x then '-' :: "Infinity".toList else "Infinity".toList := by
  have hn' : ¬x.isNaN = true := Bool.not_eq_true _ ▸ hn
  rw [DecimalStyle.write, if_neg hn']
  dsimp only
  rw [toList_signed, if_pos hi]
  rfl

/-- The text of a number is read as that number. -/
theorem lexes_real (x : Float) : Lexes (numberStyle.write x).toList (.plain (.real x)) := by
  cases hn : x.isNaN with
  | true =>
    rw [write_nan hn, eq_nan hn]
    exact lexes_nan
  | false =>
    cases hi : x.isInf with
    | true =>
      have h := lexes_infinity (isNegative x)
      rw [← eq_infinity hi] at h
      rw [write_infinity hn hi]
      exact h
    | false =>
      obtain ⟨cs, n, e, hs, hw, hx⟩ := write_spells hn hi
      have h := lexes_spells hs (isNegative x)
      rw [hx] at h
      rw [hw]
      exact h

/-! ## Lines -/

theorem Digits.no_break {cs : List Char} (h : Digits cs) : '\n' ∉ cs := fun hm => by
  cases h '\n' hm

theorem Power.no_break {p : List Char} {e : Int} (h : Power p e) : '\n' ∉ p := by
  cases h with
  | none => simp
  | plus p _ hd => simp [hd.no_break]
  | minus p _ hd => simp [hd.no_break]

theorem Spells.no_break {cs : List Char} {n : Nat} {e : Int} (h : Spells cs n e) : '\n' ∉ cs := by
  obtain ⟨w, f, p, e, hw, hf, hp, -⟩ := h
  have hwd : Digits w := by
    rcases hw with rfl | hw
    · exact digits_zeros 1
    · exact hw.1
  have hfp : '\n' ∉ pointed f := by
    unfold pointed
    split
    · simp
    · simp [hf.no_break]
  simp [hwd.no_break, hfp, hp.no_break]

theorem signed_no_break {cs : List Char} (h : '\n' ∉ cs) (negative : Bool) :
    '\n' ∉ if negative then '-' :: cs else cs := by
  cases negative <;> simp [h]

/-- The text of a number is one line. -/
theorem real_no_break (x : Float) : '\n' ∉ (numberStyle.write x).toList := by
  cases hn : x.isNaN with
  | true =>
    rw [write_nan hn]
    decide
  | false =>
    cases hi : x.isInf with
    | true =>
      rw [write_infinity hn hi]
      exact signed_no_break (by decide) _
    | false =>
      obtain ⟨cs, n, e, hs, hw, -⟩ := write_spells hn hi
      rw [hw]
      exact signed_no_break hs.no_break _

theorem whole_no_break (n : Int) : '\n' ∉ (toString n).toList := by
  rw [toList_toString_int]
  exact signed_no_break (digits_toDigits n.natAbs).no_break _

end Pseudocode.Json
