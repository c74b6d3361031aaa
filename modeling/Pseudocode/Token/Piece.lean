import Pseudocode.Text.Digit
import Pseudocode.Token.Basic

/-!
# Pieces of text

A source text falls into pieces: words, numbers, strings, signs, runs of blanks and of line ends, and
comments. Which pieces these are does not depend on what surrounds them. The first character of a piece
decides its kind and the piece is as long as its kind allows, except that a string ends at its first
closing quote.

`text_first?` says that a piece is a part of the text that is not empty, and `text_cut` that cutting
loses nothing.
-/

namespace Pseudocode

/-- The kinds of piece. -/
inductive PieceKind where
  | word
  | number
  | blanks
  | lineEnds
  | leftParen
  | rightParen
  | string
  | comma
  | marker
  | plus
  | minus
  | times
  | divide
  | comparison
  | comment
deriving DecidableEq, Repr

/-- A piece of text. -/
structure Piece where
  kind : PieceKind
  text : List Char
deriving DecidableEq, Repr

namespace Piece

/-- A letter that can open a word. -/
def opensWord (c : Char) : Bool :=
  c.isAlpha || c == '_'

/-- A character that can go on in a word. -/
def inWord (c : Char) : Bool :=
  c.isAlphanum || c == '_'

/-- The characters of a string from behind its opening quote up to its closing one, and the rest. A
backslash stands with the character behind it, and no string goes over the end of its line. -/
def stringBody : List Char → Option (List Char × List Char)
  | [] => none
  | '"' :: rest => some (['"'], rest)
  | '\n' :: _ => none
  | '\\' :: rest =>
    match rest with
    | [] => none
    | '\n' :: _ => none
    | c :: more => (stringBody more).map fun (body, after) => ('\\' :: c :: body, after)
  | c :: rest => (stringBody rest).map fun (body, after) => (c :: body, after)

/-- The fractional part behind the whole digits of a number, and the rest: a point with a digit after
it, and all digits that follow. -/
def fraction : List Char → List Char × List Char
  | '.' :: d :: rest =>
    if Text.isDigit d then
      ('.' :: d :: rest.takeWhile Text.isDigit, rest.dropWhile Text.isDigit)
    else ([], '.' :: d :: rest)
  | rest => ([], rest)

/-- The piece made of a first character and all that follow it and pass a test. -/
def run (kind : PieceKind) (p : Char → Bool) (c : Char) (rest : List Char) : Piece × List Char :=
  (⟨kind, c :: rest.takeWhile p⟩, rest.dropWhile p)

/-- The piece that a comparison sign opens: with an equals sign behind it if there is one, and alone
only if it is one of the two order signs. -/
def comparison? (c : Char) (rest : List Char) : Option (Piece × List Char) :=
  match rest with
  | '=' :: more => some (⟨.comparison, [c, '=']⟩, more)
  | _ => if c == '<' || c == '>' then some (⟨.comparison, [c]⟩, rest) else none

/-- The number that a digit opens. -/
def numberRun (c : Char) (rest : List Char) : Piece × List Char :=
  let digits := rest.takeWhile Text.isDigit
  let after := rest.dropWhile Text.isDigit
  (⟨.number, c :: digits ++ (fraction after).1⟩, (fraction after).2)

/-- The piece that a character other than a letter or a digit opens. -/
def mark? (c : Char) (rest : List Char) : Option (Piece × List Char) :=
  match c with
  | ' ' => some (run .blanks (· == ' ') c rest)
  | '\t' => some (run .blanks (· == '\t') c rest)
  | '\n' => some (run .lineEnds (· == '\n') c rest)
  | '#' => some (run .comment (· != '\n') c rest)
  | '"' => (stringBody rest).map fun (body, after) => (⟨.string, c :: body⟩, after)
  | '(' => some (⟨.leftParen, [c]⟩, rest)
  | ')' => some (⟨.rightParen, [c]⟩, rest)
  | ',' => some (⟨.comma, [c]⟩, rest)
  | '@' => some (⟨.marker, [c]⟩, rest)
  | '+' => some (⟨.plus, [c]⟩, rest)
  | '-' => some (⟨.minus, [c]⟩, rest)
  | '*' => some (⟨.times, [c]⟩, rest)
  | '/' => some (⟨.divide, [c]⟩, rest)
  | '<' => comparison? c rest
  | '>' => comparison? c rest
  | '=' => comparison? c rest
  | '!' => comparison? c rest
  | _ => none

/-- The first piece of a text and the rest, or nothing if the text is empty or no piece starts with its
first character. -/
def first? : List Char → Option (Piece × List Char)
  | [] => none
  | c :: rest =>
    if opensWord c then some (run .word inWord c rest)
    else if Text.isDigit c then some (numberRun c rest)
    else mark? c rest

theorem text_stringBody {cs body rest : List Char} (h : stringBody cs = some (body, rest)) :
    cs = body ++ rest := by
  fun_induction stringBody cs generalizing body rest with
  | case1 => simp at h
  | case2 r => simp at h; simp [← h.1, ← h.2]
  | case3 => simp at h
  | case4 => simp at h
  | case5 => simp at h
  | case6 c more _ ih =>
    obtain ⟨⟨b, a⟩, hb, he⟩ := Option.map_eq_some_iff.1 h
    simp only [Prod.mk.injEq] at he
    simp [← he.1, ← he.2, ih hb]
  | case7 c r _ _ _ ih =>
    obtain ⟨⟨b, a⟩, hb, he⟩ := Option.map_eq_some_iff.1 h
    simp only [Prod.mk.injEq] at he
    simp [← he.1, ← he.2, ih hb]

theorem text_fraction (cs : List Char) : (fraction cs).1 ++ (fraction cs).2 = cs := by
  fun_cases fraction cs <;> simp [*]

theorem text_comparison? {c : Char} {cs rest : List Char} {p : Piece}
    (h : comparison? c cs = some (p, rest)) : c :: cs = p.text ++ rest ∧ p.text ≠ [] := by
  unfold comparison? at h
  split at h
  · simp only [Option.some.injEq, Prod.mk.injEq] at h
    simp [← h.1, ← h.2]
  · split at h
    · simp only [Option.some.injEq, Prod.mk.injEq] at h
      simp [← h.1, ← h.2]
    · simp at h

theorem text_run (kind : PieceKind) (p : Char → Bool) (c : Char) (cs : List Char) :
    c :: cs = (run kind p c cs).1.text ++ (run kind p c cs).2 ∧ (run kind p c cs).1.text ≠ [] := by
  simp [run]

theorem text_numberRun (c : Char) (cs : List Char) :
    c :: cs = (numberRun c cs).1.text ++ (numberRun c cs).2 ∧ (numberRun c cs).1.text ≠ [] := by
  simp [numberRun, text_fraction]

/-- What holds of a pair holds of the piece and the rest that an option gives as that pair. -/
theorem text_of_some {c : Char} {cs rest : List Char} {p : Piece} {r : Piece × List Char}
    (hr : c :: cs = r.1.text ++ r.2 ∧ r.1.text ≠ []) (h : some r = some (p, rest)) :
    c :: cs = p.text ++ rest ∧ p.text ≠ [] := by
  cases h
  exact hr

theorem text_mark? {c : Char} {cs rest : List Char} {p : Piece} (h : mark? c cs = some (p, rest)) :
    c :: cs = p.text ++ rest ∧ p.text ≠ [] := by
  unfold mark? at h
  split at h
  case h_5 =>
    obtain ⟨⟨b, a⟩, hb, he⟩ := Option.map_eq_some_iff.1 h
    simp only [Prod.mk.injEq] at he
    simp [← he.1, ← he.2, text_stringBody hb]
  case h_18 => simp at h
  all_goals first
    | exact text_comparison? h
    | exact text_of_some (text_run ..) h
    | exact text_of_some (by simp) h

/-- A piece and the rest make up the text, and the piece is not empty. -/
theorem text_first? {cs rest : List Char} {p : Piece} (h : first? cs = some (p, rest)) :
    cs = p.text ++ rest ∧ p.text ≠ [] := by
  cases cs with
  | nil => simp [first?] at h
  | cons c cs =>
    rw [first?] at h
    split at h
    · exact text_of_some (text_run ..) h
    · split at h
      · exact text_of_some (text_numberRun ..) h
      · exact text_mark? h

theorem length_first? {cs rest : List Char} {p : Piece} (h : first? cs = some (p, rest)) :
    rest.length < cs.length := by
  obtain ⟨he, hn⟩ := text_first? h
  have := List.length_pos_iff.2 hn
  rw [he, List.length_append]
  omega

/-- The pieces of a text up to the first character that opens none, and the rest from there. -/
def cut (cs : List Char) : List Piece × List Char :=
  match h : first? cs with
  | none => ([], cs)
  | some (p, rest) =>
    have := length_first? h
    let (ps, left) := cut rest
    (p :: ps, left)
termination_by cs.length

/-- The pieces and what is left make up the text. -/
theorem text_cut (cs : List Char) : (cut cs).1.flatMap Piece.text ++ (cut cs).2 = cs := by
  fun_induction cut cs with
  | case1 => simp
  | case2 cs p rest h _ ps left hc ih =>
    rw [hc] at ih
    simp only [List.flatMap_cons, List.append_assoc]
    simp only at ih
    rw [ih, (text_first? h).1]

end Piece

end Pseudocode
