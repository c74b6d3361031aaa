import Mathlib

/-!
# Parts that stand side by side

Results of benches are written in parts with nothing between them: fixed words, numbers and texts. A list writes how many
items it has, and then the items. Parts run together: the digits of a number go on in a number behind it, and a text has
no end.

Here two runs of parts with the same characters are read side by side. Each part of the one begins where a part of the
other does, and they are of one form (`meet`). If no number stands before a natural number in the one run, a number of
the other run can only end earlier, with natural numbers up to the same place. Then fewer values are to come in the other
run, and it never makes up for them. So the runs are the same as long as no text has anything behind it: `eq_of_firm`.
Otherwise both have to be like the first, and a text with something behind it must not hold what can begin a part:
`eq_of_apart`.
-/

namespace Pseudocode.Measure

/-! ## Parts -/

/-- What stands before the digits of a number: nothing, a sign, or the letter of a count. -/
inductive Lead where
  | nothing
  | minus
  | letter
deriving DecidableEq, Repr

def Lead.chars : Lead → List Char
  | nothing => []
  | minus => ['-']
  | letter => ['L']

/-- The parts that results are written in. The items of a list stand behind their count. -/
inductive Part where
  | none
  | bool (b : Bool)
  | number (lead : Lead) (n : Nat)
  | text (cs : List Char)
deriving DecidableEq, Repr

namespace Part

def chars : Part → List Char
  | none => ['N', 'o', 'n', 'e']
  | bool true => ['T', 'r', 'u', 'e']
  | bool false => ['F', 'a', 'l', 's', 'e']
  | number lead n => lead.chars ++ Nat.toDigits 10 n
  | text cs => 's' :: cs

/-- How many values that stand behind a part belong to it. -/
def holds : Part → Nat
  | number .letter n => n
  | _ => 0

/-- The characters of parts, with nothing between them. -/
def written (ps : List Part) : List Char :=
  ps.flatMap chars

@[simp]
theorem written_cons (a : Part) (ps : List Part) : written (a :: ps) = a.chars ++ written ps :=
  rfl

@[simp]
theorem written_append (ps qs : List Part) : written (ps ++ qs) = written ps ++ written qs :=
  List.flatMap_append

/-! ## How parts begin -/

/-- A character as an opener, all digits being taken for one. -/
def asOpener (c : Char) : Char :=
  if c.isDigit then '0' else c

/-- The character that a part begins with. -/
def opener : Part → Char
  | none => 'N'
  | bool true => 'T'
  | bool false => 'F'
  | number .nothing _ => '0'
  | number .minus _ => '-'
  | number .letter _ => 'L'
  | text _ => 's'

/-- Some part begins with the character. -/
def begins (c : Char) : Bool :=
  ['N', 'T', 'F', '0', '-', 'L', 's'].contains (asOpener c)

/-- A number without anything before its digits. -/
def isNatural : Part → Bool
  | number .nothing _ => true
  | _ => false

theorem isDigit_iff_asOpener (c : Char) : c.isDigit = true ↔ asOpener c = '0' := by
  unfold asOpener
  split
  · simp [*]
  · refine iff_of_false ‹_› ?_
    rintro rfl
    exact absurd rfl ‹¬_›

theorem isDigit_of_mem {n : Nat} {c : Char} (h : c ∈ Nat.toDigits 10 n) : c.isDigit = true :=
  Nat.isDigit_of_mem_toDigits (by decide) (by decide) h

theorem exists_chars (a : Part) : ∃ c cs, a.chars = c :: cs ∧ asOpener c = a.opener := by
  cases a with
  | none => exact ⟨_, _, rfl, rfl⟩
  | bool b => cases b <;> exact ⟨_, _, rfl, rfl⟩
  | text cs => exact ⟨_, _, rfl, rfl⟩
  | number lead n =>
    cases lead with
    | nothing =>
      obtain ⟨c, cs, hc⟩ := List.exists_cons_of_ne_nil (Nat.toDigits_ne_nil (n := n) (b := 10))
      exact ⟨c, cs, hc, (isDigit_iff_asOpener c).1 (isDigit_of_mem (hc ▸ List.mem_cons_self))⟩
    | minus | letter => exact ⟨_, _, rfl, rfl⟩

theorem isNatural_iff (a : Part) : a.isNatural = true ↔ a.opener = '0' := by
  cases a with
  | bool b => cases b <;> decide
  | number lead n => cases lead <;> simp [isNatural, opener]
  | _ => simp [isNatural, opener]

theorem exists_of_isNatural {a : Part} (h : a.isNatural = true) : ∃ n, a = number .nothing n := by
  cases a with
  | number lead n => cases lead <;> first | exact ⟨n, rfl⟩ | cases h
  | _ => cases h

theorem begins_opener (a : Part) {c : Char} (h : asOpener c = a.opener) : begins c = true := by
  unfold begins
  rw [h]
  cases a with
  | bool b => cases b <;> rfl
  | number lead n => cases lead <;> rfl
  | _ => rfl

/-- Two parts at the beginning of the same characters are of one form. -/
theorem meet {a b : Part} {xs ys : List Char} (h : a.chars ++ xs = b.chars ++ ys) :
    (a = b ∧ xs = ys) ∨
      (∃ lead n m, a = number lead n ∧ b = number lead m ∧ Nat.toDigits 10 n ++ xs = Nat.toDigits 10 m ++ ys) ∨
      ∃ cs ds, a = text cs ∧ b = text ds ∧ cs ++ xs = ds ++ ys := by
  have ho : a.opener = b.opener := by
    obtain ⟨c, cs, ha, hc⟩ := a.exists_chars
    obtain ⟨d, ds, hb, hd⟩ := b.exists_chars
    rw [ha, hb, List.cons_append, List.cons_append] at h
    rw [← hc, ← hd, (List.cons.inj h).1]
  cases a with
  | none =>
    cases b with
    | none => exact .inl ⟨rfl, List.append_cancel_left h⟩
    | bool b => cases b <;> cases ho
    | number lead n => cases lead <;> cases ho
    | text ds => cases ho
  | bool a =>
    cases b with
    | none => cases a <;> cases ho
    | bool b =>
      obtain rfl : a = b := by cases a <;> cases b <;> first | rfl | cases ho
      exact .inl ⟨rfl, List.append_cancel_left h⟩
    | number lead n => cases a <;> cases lead <;> cases ho
    | text ds => cases a <;> cases ho
  | number lead n =>
    cases b with
    | none => cases lead <;> cases ho
    | bool b => cases b <;> cases lead <;> cases ho
    | number lead' m =>
      obtain rfl : lead = lead' := by cases lead <;> cases lead' <;> first | rfl | cases ho
      refine .inr (.inl ⟨lead, n, m, rfl, rfl, ?_⟩)
      simpa [chars] using h
    | text ds => cases lead <;> cases ho
  | text cs =>
    cases b with
    | none => cases ho
    | bool b => cases b <;> cases ho
    | number lead n => cases lead <;> cases ho
    | text ds => exact .inr (.inr ⟨cs, ds, rfl, rfl, (List.cons.inj h).2⟩)

/-! ## Neighbours that do not run together -/

def isNumber : Part → Bool
  | number _ _ => true
  | _ => false

def isText : Part → Bool
  | text _ => true
  | _ => false

/-- The characters of a text. -/
def textChars : Part → List Char
  | text cs => cs
  | _ => []

/-- Of two neighbours, the second does not go on with the digits of the first, and no part begins with a character of
the first if that is a text. -/
def Apart (a b : Part) : Prop :=
  (a.isNumber && b.isNatural) = false ∧ ∀ c ∈ a.textChars, begins c = false

/-- Of two neighbours, the second does not go on with the digits of the first, and the first is no text. -/
def Firm (a b : Part) : Prop :=
  (a.isNumber && b.isNatural) = false ∧ a.isText = false

instance : DecidableRel Apart := fun a b =>
  inferInstanceAs (Decidable ((a.isNumber && b.isNatural) = false ∧ ∀ c ∈ a.textChars, begins c = false))

instance : DecidableRel Firm := fun a b =>
  inferInstanceAs (Decidable ((a.isNumber && b.isNatural) = false ∧ a.isText = false))

theorem asOpener_of_head {a : Part} {ps : List Part} {c : Char} (h : c ∈ (written (a :: ps)).head?) :
    asOpener c = a.opener := by
  obtain ⟨d, ds, ha, hd⟩ := a.exists_chars
  rw [written_cons, ha, List.cons_append, List.head?_cons, Option.mem_some] at h
  exact h ▸ hd

/-- The characters of parts begin with a digit only if the first part is a natural number. -/
theorem written_no_digit {ps : List Part} (h : ∀ a ∈ ps.head?, a.isNatural = false) :
    ∀ c ∈ (written ps).head?, c.isDigit = false := by
  intro c hc
  cases ps with
  | nil => cases hc
  | cons a ps =>
    rw [← Bool.not_eq_true, isDigit_iff_asOpener, asOpener_of_head hc, ← isNatural_iff, h a rfl]
    decide

theorem written_begins (ps : List Part) : ∀ c ∈ (written ps).head?, begins c = true := by
  intro c hc
  cases ps with
  | nil => cases hc
  | cons a ps => exact a.begins_opener (asOpener_of_head hc)

theorem written_eq_nil {ps : List Part} (h : written ps = []) : ps = [] := by
  cases ps with
  | nil => rfl
  | cons a ps =>
    obtain ⟨c, cs, ha, -⟩ := a.exists_chars
    rw [written_cons, ha] at h
    cases h

/-! ## Digits -/

/-- Where a run of characters of one sort ends in one reading, it may end earlier in the other. -/
theorem run_split {q : Char → Bool} {ds es xs ys : List Char} (h : ds ++ xs = es ++ ys) (he : ∀ c ∈ es, q c = true)
    (hx : ∀ c ∈ xs.head?, q c = false) : ∃ rest, ds = es ++ rest ∧ ys = rest ++ xs := by
  rcases List.append_eq_append_iff.1 h with ⟨rest, rfl, rfl⟩ | ⟨rest, rfl, rfl⟩
  · cases rest with
    | nil => exact ⟨[], by simp, by simp⟩
    | cons c rest =>
      have hc := he c (by simp)
      rw [hx c rfl] at hc
      cases hc
  · exact ⟨rest, rfl, rfl⟩

/-- If the other sort follows in both readings, the run ends at one place. -/
theorem run_unique {q : Char → Bool} {ds es xs ys : List Char} (h : ds ++ xs = es ++ ys) (hd : ∀ c ∈ ds, q c = true)
    (he : ∀ c ∈ es, q c = true) (hx : ∀ c ∈ xs.head?, q c = false) (hy : ∀ c ∈ ys.head?, q c = false) :
    ds = es ∧ xs = ys := by
  obtain ⟨rest, rfl, rfl⟩ := run_split h he hx
  cases rest with
  | nil => exact ⟨by simp, rfl⟩
  | cons c rest =>
    have hc := hd c (by simp)
    rw [hy c rfl] at hc
    cases hc

/-- Digits at the beginning of parts are natural numbers. -/
theorem naturals_of_digits {ps : List Part} {ds xs : List Char} (h : written ps = ds ++ xs)
    (hd : ∀ c ∈ ds, c.isDigit = true) (hx : ∀ c ∈ xs.head?, c.isDigit = false) :
    ∃ ns rest, ps = ns ++ rest ∧ (∀ a ∈ ns, a.isNatural = true) ∧ written rest = xs ∧ written ns = ds := by
  induction ps generalizing ds with
  | nil =>
    obtain ⟨rfl, rfl⟩ := List.append_eq_nil_iff.1 h.symm
    exact ⟨[], [], rfl, nofun, rfl, rfl⟩
  | cons a ps ih =>
    cases ds with
    | nil => exact ⟨[], a :: ps, rfl, nofun, h, rfl⟩
    | cons c ds =>
      obtain ⟨e, es, ha, he⟩ := a.exists_chars
      have hn : a.isNatural = true := by
        rw [isNatural_iff, ← he, ← isDigit_iff_asOpener]
        rw [written_cons, ha, List.cons_append, List.cons_append] at h
        rw [(List.cons.inj h).1]
        exact hd c List.mem_cons_self
      obtain ⟨n, rfl⟩ := exists_of_isNatural hn
      obtain ⟨more, hm, hw⟩ := run_split h.symm (fun c hc => isDigit_of_mem hc) hx
      obtain ⟨ns, rest, rfl, hns, hr, hw'⟩ := ih hw fun c hc => hd c (by rw [hm]; exact List.mem_append_right _ hc)
      refine ⟨number .nothing n :: ns, rest, rfl, ?_, hr, ?_⟩
      · intro b hb
        rcases List.mem_cons.1 hb with rfl | hb
        · rfl
        · exact hns b hb
      · rw [written_cons, hw', hm]

theorem le_ofDigitChars (cs : List Char) (n : Nat) : n ≤ Nat.ofDigitChars 10 cs n := by
  induction cs generalizing n with
  | nil => exact Nat.le_refl n
  | cons c cs ih =>
    rw [Nat.ofDigitChars_cons]
    exact le_trans (by omega) (ih _)

/-- A number whose digits begin with those of another is not less. -/
theorem le_of_toDigits {n m : Nat} {rest : List Char} (h : Nat.toDigits 10 n = Nat.toDigits 10 m ++ rest) : m ≤ n := by
  have hn : Nat.ofDigitChars 10 (Nat.toDigits 10 m ++ rest) 0 = n := by
    rw [← h, Nat.ofDigitChars_ten_toDigits]
  rw [Nat.ofDigitChars_append, Nat.ofDigitChars_ten_toDigits] at hn
  exact hn ▸ le_ofDigitChars rest m

theorem toDigits_inj {n m : Nat} (h : Nat.toDigits 10 n = Nat.toDigits 10 m) : n = m := by
  rw [← Nat.ofDigitChars_ten_toDigits (n := n), h, Nat.ofDigitChars_ten_toDigits]

/-! ## Values to come -/

/-- Parts that make up a number of values. -/
inductive Fills : Nat → List Part → Prop
  | nil : Fills 0 []
  | cons {p : Nat} {a : Part} {ps : List Part} : Fills (a.holds + p) ps → Fills (p + 1) (a :: ps)

theorem Fills.eq_zero {p : Nat} (h : Fills p []) : p = 0 := by
  cases h
  rfl

theorem Fills.eq_nil {ps : List Part} (h : Fills 0 ps) : ps = [] := by
  cases h
  rfl

theorem Fills.exists_head {p : Nat} {ps : List Part} (h : Fills p ps) (hp : 0 < p) : ∃ a, a ∈ ps.head? := by
  cases h with
  | nil => cases hp
  | cons _ => exact ⟨_, rfl⟩

theorem Fills.unique {p q : Nat} {ps : List Part} (hp : Fills p ps) (hq : Fills q ps) : p = q := by
  induction hp generalizing q with
  | nil =>
    cases hq
    rfl
  | cons _ ih =>
    cases hq with
    | cons hq =>
      have := ih hq
      omega

/-- Every natural number is a value of its own. -/
theorem Fills.naturals {p : Nat} {ns rest : List Part} (h : Fills p (ns ++ rest))
    (hn : ∀ a ∈ ns, a.isNatural = true) : ∃ q, p = ns.length + q ∧ Fills q rest := by
  induction ns generalizing p with
  | nil => exact ⟨p, by simp, h⟩
  | cons a ns ih =>
    rw [List.cons_append] at h
    cases h with
    | @cons p _ _ h =>
      obtain ⟨n, rfl⟩ := exists_of_isNatural (hn a List.mem_cons_self)
      rw [show (number .nothing n).holds = 0 from rfl, Nat.zero_add] at h
      obtain ⟨q, rfl, hq⟩ := ih h fun b hb => hn b (List.mem_cons_of_mem _ hb)
      exact ⟨q, by simp; omega, hq⟩

/-! ## Reading two runs side by side -/

section

variable {p q : Nat} {as bs : List Part}

/-- Where neighbours are firm, no other parts for as many values or fewer have the same characters. -/
theorem eq_of_firm (hq : Fills q as) (hp : Fills p bs) (hle : p ≤ q) (h : written as = written bs)
    (hc : as.IsChain Firm) : as = bs := by
  induction hq generalizing p bs with
  | nil => exact (written_eq_nil h.symm).symm
  | @cons q a as hq ih =>
    cases hp with
    | nil => exact written_eq_nil h
    | @cons p b bs hp =>
      obtain ⟨hfirm, hrun⟩ := List.isChain_cons.1 hc
      rcases meet h with ⟨rfl, ht⟩ | ⟨lead, n, m, rfl, rfl, ht⟩ | ⟨cs, ds, rfl, rfl, ht⟩
      · rw [ih hp (by omega) ht hrun]
      · have hno := written_no_digit fun c hm => (hfirm c hm).1
        obtain ⟨more, hm, hw⟩ := run_split ht (fun c hc => isDigit_of_mem hc) hno
        have hmore : ∀ c ∈ more, c.isDigit = true := fun c hc =>
          isDigit_of_mem (n := n) (hm ▸ List.mem_append_right _ hc)
        obtain ⟨ns, rest, rfl, hns, hr, hwn⟩ := naturals_of_digits hw hmore hno
        obtain ⟨k, hk, hrest⟩ := hp.naturals hns
        -- The second number is no larger, and the natural numbers behind it are values of their own.
        have hholds : (number lead m).holds ≤ (number lead n).holds := by
          cases lead with
          | letter => exact le_of_toDigits hm
          | nothing | minus => exact Nat.le_refl 0
        obtain rfl := ih hrest (by omega) hr.symm hrun
        have hkq := hrest.unique hq
        obtain rfl : ns = [] := List.eq_nil_of_length_eq_zero (by omega)
        obtain rfl : more = [] := hwn.symm
        rw [List.append_nil] at hm
        rw [toDigits_inj hm, List.nil_append]
      · -- A firm text is the last part, so there is one value to come, and the second text is the last part too.
        obtain rfl : as = [] := by
          cases as with
          | nil => rfl
          | cons c as => cases (hfirm c rfl).2
        have hz : (text cs).holds + q = 0 := hq.eq_zero
        obtain rfl : p = 0 := by omega
        obtain rfl : bs = [] := Fills.eq_nil hp
        rw [List.append_cancel_right ht]

/-- Where neighbours are apart in both, the same characters are the same parts. -/
theorem eq_of_apart (hp : Fills p as) (hq : Fills p bs) (h : written as = written bs) (ha : as.IsChain Apart)
    (hb : bs.IsChain Apart) : as = bs := by
  induction hp generalizing bs with
  | nil => exact (written_eq_nil h.symm).symm
  | @cons p a as hp ih =>
    cases hq with
    | @cons _ b bs hq =>
      obtain ⟨hapart, hrun⟩ := List.isChain_cons.1 ha
      obtain ⟨hapart', hrun'⟩ := List.isChain_cons.1 hb
      rcases meet h with ⟨rfl, ht⟩ | ⟨lead, n, m, rfl, rfl, ht⟩ | ⟨cs, ds, rfl, rfl, ht⟩
      · rw [ih hq ht hrun hrun']
      · have hno := written_no_digit fun c hm => (hapart c hm).1
        have hno' := written_no_digit fun c hm => (hapart' c hm).1
        obtain ⟨hd, he⟩ := run_unique ht (fun c hc => isDigit_of_mem hc) (fun c hc => isDigit_of_mem hc) hno hno'
        obtain rfl := toDigits_inj hd
        rw [ih hq he hrun hrun']
      · rcases Nat.eq_zero_or_pos p with rfl | hpos
        · obtain rfl : as = [] := hp.eq_nil
          obtain rfl : bs = [] := Fills.eq_nil hq
          rw [List.append_cancel_right ht]
        · -- There are values to come in both, and so each text ends where something begins.
          obtain ⟨c, hc⟩ := hp.exists_head (by omega)
          obtain ⟨d, hd⟩ := Fills.exists_head hq (by omega)
          have hcs : ∀ x ∈ cs, (!begins x) = true := fun x hx => by rw [(hapart c hc).2 x hx, Bool.not_false]
          have hds : ∀ x ∈ ds, (!begins x) = true := fun x hx => by rw [(hapart' d hd).2 x hx, Bool.not_false]
          obtain ⟨rfl, he⟩ := run_unique ht hcs hds
            (fun x hx => by rw [written_begins _ x hx, Bool.not_true])
            (fun x hx => by rw [written_begins _ x hx, Bool.not_true])
          rw [ih hq he hrun hrun']

end

end Part

end Pseudocode.Measure
