import Pseudocode.Proofs.Conservation
import Pseudocode.Proofs.Spelling

/-!
# What becomes of every character of a text

The scanner and the tracker of lines go through a text from its start to its end. Every character goes into the lexeme
of a token or into a gap: a comment, blanks within a line or in parentheses, or line ends in parentheses. `Segment` is
either of these, `TokenKind.Lexeme` says how tokens of a kind are written and `PassedOver` what a gap can be.

The place of the scanner is a matter of the segments behind it (`Reads`): it has counted their characters, their line
ends and their parentheses. Each step keeps this (`Reads.skip`, `Reads.make`), since no piece but line ends goes over
the end of a line. So a text without a fault is made of segments that each fit their place: `trackText_accounts`.
-/

namespace Pseudocode

/-! ## Lexemes -/

/-- One or more of the same character. -/
def IsRun (c : Char) (cs : List Char) : Prop :=
  cs ≠ [] ∧ ∀ d ∈ cs, d = c

/-- Digits, and perhaps a point with more digits behind it. -/
inductive IsNumeral : List Char → Prop
  | whole {ds : List Char} (hn : ds ≠ []) (h : ∀ d ∈ ds, Text.isDigit d) : IsNumeral ds
  | places {ds es : List Char} (hn : ds ≠ []) (h : ∀ d ∈ ds, Text.isDigit d) (hn' : es ≠ [])
      (h' : ∀ d ∈ es, Text.isDigit d) : IsNumeral (ds ++ '.' :: es)

/-- How tokens of a kind are written. The words of the language are written like names. -/
def TokenKind.Lexeme : TokenKind → List Char → Prop
  | .string, cs => IsLiteral (String.ofList cs)
  | .number, cs => IsNumeral cs
  | .plus, cs => cs = ['+']
  | .minus, cs => cs = ['-']
  | .times, cs => cs = ['*']
  | .divide, cs => cs = ['/']
  | .comparison, cs => Tree.isComparing (String.ofList cs)
  | .comma, cs => cs = [',']
  | .leftParen, cs => cs = ['(']
  | .rightParen, cs => cs = [')']
  | .marker, cs => cs = ['@']
  | .newline, cs => IsRun '\n' cs
  | .blank, cs => IsRun ' ' cs ∨ IsRun '\t' cs
  | .indent, _ | .dedent, _ | .endMarker, _ => False
  | k, cs => Piece.isWord cs ∧ Piece.wordKind (String.ofList cs) = k

/-- The characters that a token is written with. They are what it carries, or the number that it carries is theirs. -/
structure Token.Lexeme (t : Token) (cs : List Char) : Prop where
  kind : t.kind.Lexeme cs
  value : if t.kind = .number then Piece.numberOf cs = .ok t.payload else t.payload = .text (String.ofList cs)

/-- How pieces of a kind are written. -/
def PieceKind.Written : PieceKind → List Char → Prop
  | .word, cs => Piece.isWord cs
  | .number, cs => IsNumeral cs
  | .blanks, cs => IsRun ' ' cs ∨ IsRun '\t' cs
  | .lineEnds, cs => IsRun '\n' cs
  | .comment, cs => ∃ ds, cs = '#' :: ds ∧ '\n' ∉ ds
  | k, cs => k.Covers cs

namespace Piece

theorem isRun_run (kind : PieceKind) (c : Char) (rest : List Char) : IsRun c (run kind (· == c) c rest).1.text :=
  ⟨List.cons_ne_nil _ _, fun d hd => by simpa using all_run (q := (· == c)) kind (by simp) rest d hd⟩

theorem isNumeral_numberRun {c : Char} (hc : Text.isDigit c) (rest : List Char) :
    IsNumeral (numberRun c rest).1.text := by
  have hd : ∀ d ∈ c :: rest.takeWhile Text.isDigit, Text.isDigit d := all_run .number hc rest
  rw [numberRun]
  dsimp only
  generalize rest.dropWhile Text.isDigit = after
  fun_cases fraction after with
  | case1 d more he =>
    exact .places (List.cons_ne_nil _ _) hd (List.cons_ne_nil _ _) (all_run .number he more)
  | case2 | case3 =>
    rw [List.append_nil]
    exact .whole (List.cons_ne_nil _ _) hd

theorem written_mark? {c : Char} {cs rest : List Char} {p : Piece} (h : mark? c cs = some (p, rest)) :
    p.kind.Written p.text := by
  have hc := covers_mark? h
  unfold mark? at h
  split at h
  case h_1 => cases h; exact .inl (isRun_run _ _ _)
  case h_2 => cases h; exact .inr (isRun_run _ _ _)
  case h_3 => cases h; exact isRun_run _ _ _
  case h_4 =>
    cases h
    exact ⟨_, rfl, fun hn => hc (List.mem_cons_of_mem _ hn)⟩
  case h_5 =>
    obtain ⟨_, -, he⟩ := Option.map_eq_some_iff.1 h
    cases he
    exact hc
  case h_14 | h_15 | h_16 | h_17 =>
    unfold comparison? at h
    split at h
    · cases h
      exact hc
    · split at h <;> cases h
      exact hc
  case h_18 => cases h
  all_goals cases h; exact hc

/-- The first piece of a text is written as its kind says. -/
theorem written_first? {cs rest : List Char} {p : Piece} (h : first? cs = some (p, rest)) : p.kind.Written p.text := by
  cases cs with
  | nil => cases h
  | cons c cs =>
    rw [first?] at h
    split at h
    case isTrue hw =>
      cases h
      have hr : ∀ d ∈ cs.takeWhile inWord, inWord d := List.all_eq_true.1 List.all_takeWhile
      exact Bool.and_eq_true_iff.2 ⟨hw, List.all_eq_true.2 hr⟩
    case isFalse =>
      split at h
      case isTrue hd => cases h; exact isNumeral_numberRun hd cs
      case isFalse => exact written_mark? h

theorem lexeme_word {cs : List Char} (h : isWord cs) : (wordKind (String.ofList cs)).Lexeme cs := by
  generalize hw : wordKind (String.ofList cs) = k
  cases k with
  | name | truth | letWord | beWord | ifWord | thenWord | elseWord | returnWord | gotoWord | instructionWord
  | printWord => exact ⟨h, hw⟩
  | _ =>
    unfold wordKind at hw
    split at hw <;> cases hw

/-- The token of a piece is written as the piece is. -/
theorem lexeme_tokenKind? {p : Piece} {opening nested : Bool} {k : TokenKind} (hp : p.kind.Written p.text)
    (h : p.tokenKind? opening nested = some k) : k.Lexeme p.text ∧ (k = .number ↔ p.kind = .number) := by
  obtain ⟨kind, cs⟩ := p
  unfold tokenKind? at h
  cases kind with
  | word =>
    cases h
    refine ⟨lexeme_word hp, iff_of_false ?_ nofun⟩
    unfold wordKind
    split <;> nofun
  | blanks | lineEnds =>
    dsimp only at h
    split at h <;> cases h
    exact ⟨hp, by simp⟩
  | comment => cases h
  | _ => cases h; exact ⟨hp, by simp⟩

end Piece

/-! ## Segments -/

/-- A stretch of a text: the lexeme of a token, or a gap between tokens. -/
inductive Segment where
  | token (t : Token) (lexeme : List Char)
  | gap (cs : List Char)

namespace Segment

def text : Segment → List Char
  | token _ lexeme => lexeme
  | gap cs => cs

def token? : Segment → Option Token
  | token t _ => some t
  | gap _ => none

/-- The characters of some segments. -/
def chars (segs : List Segment) : List Char :=
  segs.flatMap text

/-- The tokens among some segments. -/
def made (segs : List Segment) : List Token :=
  segs.filterMap token?

theorem chars_snoc (segs : List Segment) (seg : Segment) : chars (segs ++ [seg]) = chars segs ++ seg.text := by
  simp [chars]

theorem made_snoc (segs : List Segment) (seg : Segment) : made (segs ++ [seg]) = made segs ++ seg.token?.toList := by
  cases seg <;> simp [made, token?]

end Segment

open Segment

/-- What the scanner can pass over behind some characters and tokens, and before the rest of the text: a comment that
ends with its line; blanks that stand in parentheses or behind something that is not blank on their line; and line ends
in parentheses. -/
inductive PassedOver (before : List Char) (made : List Token) (rest : List Char) : List Char → Prop
  | comment {cs : List Char} (h : '\n' ∉ cs) (hr : rest = [] ∨ ∃ more, rest = '\n' :: more) :
      PassedOver before made rest ('#' :: cs)
  | blanks {cs : List Char} (h : IsRun ' ' cs ∨ IsRun '\t' cs)
      (hs : ¬(openParens made = 0 ∧ Blanks (lastLine before))) : PassedOver before made rest cs
  | lineEnds {cs : List Char} (h : IsRun '\n' cs) (hs : openParens made ≠ 0) : PassedOver before made rest cs

/-- A segment can stand between others, in a text whose first line has the given number. -/
def Segment.Fits (line : Nat) (before : List Segment) (seg : Segment) (behind : List Segment) : Prop :=
  match seg with
  | token t lexeme =>
    t.Lexeme lexeme ∧ t.pos = (chars before).length ∧ t.line = line + (chars before).count '\n'
  | gap cs => PassedOver (chars before) (made before) (chars behind) cs

/-- Segments that each fit their place behind some others. -/
def Fitting (line : Nat) (before segs : List Segment) : Prop :=
  ∀ pre seg post, segs = pre ++ seg :: post → seg.Fits line (before ++ pre) post

theorem Fitting.nil (line : Nat) (before : List Segment) : Fitting line before [] := by
  intro pre seg post he
  cases pre <;> cases he

theorem Fitting.cons {line : Nat} {before segs : List Segment} {seg : Segment} (h : seg.Fits line before segs)
    (hs : Fitting line (before ++ [seg]) segs) : Fitting line before (seg :: segs) := by
  intro pre seg' post he
  cases pre with
  | nil =>
    cases he
    rwa [List.append_nil]
  | cons _ pre =>
    cases he
    have hp := hs pre seg' post rfl
    rwa [List.append_assoc] at hp

/-! ## The scanner behind segments -/

/-- Where the scanner stands behind some segments. -/
def Segment.place (line : Nat) (segs : List Segment) : Scanner :=
  ⟨(chars segs).length, line + (chars segs).count '\n', openParens (made segs)⟩

/-- The scanner has counted the segments behind it, and where the tracker does not see the start of a line something is
written on it, unless in parentheses. -/
structure Reads (line : Nat) (before : List Segment) (s : Scanner) (l : LineTracker) : Prop where
  scanner : s = place line before
  written : l.opening = false → s.parens = 0 → ¬Blanks (lastLine (chars before))

theorem Reads.start (line : Nat) : Reads line [] (.start line) .start :=
  ⟨rfl, nofun⟩

section

variable {line : Nat} {before : List Segment} {s : Scanner} {l : LineTracker} {cs rest : List Char} {p : Piece}

/-- A piece moves the scanner by its characters and its line ends. -/
theorem Scanner.after_first? (h : Piece.first? cs = some (p, rest)) (s : Scanner) :
    s.after p = ⟨s.pos + p.text.length, s.line + p.text.count '\n', (s.after p).parens⟩ := by
  have hc : (if p.kind = .lineEnds then s.line + p.text.length else s.line) = s.line + p.text.count '\n' := by
    have hp := Piece.covers_first? h
    split
    case isTrue hk =>
      rw [hk] at hp
      rw [List.count_eq_length.2 fun c hm => (hp.2 c hm).symm]
    case isFalse hk => rw [List.count_eq_zero.2 (Piece.no_lineEnd hp hk), Nat.add_zero]
  rw [← hc]
  rfl

theorem Reads.after (hr : Reads line before s l) (h : Piece.first? cs = some (p, rest)) {seg : Segment}
    (ht : seg.text = p.text) (hp : (s.after p).parens = s.parens + openParens seg.token?.toList) :
    s.after p = place line (before ++ [seg]) := by
  rw [Scanner.after_first? h, hp, hr.scanner, place, place, chars_snoc, made_snoc, openParens_append, ht,
    List.length_append, List.count_append, Nat.add_assoc]

/-- What is written on a line stays there. -/
theorem Reads.written_after (hr : Reads line before s l) (h : Piece.first? cs = some (p, rest))
    (hk : p.kind ≠ .lineEnds) (ho : l.opening = false) (h0 : s.parens = 0) :
    ¬Blanks (lastLine (chars before ++ p.text)) := by
  rw [lastLine_append _ (Piece.no_lineEnd (Piece.covers_first? h) hk)]
  exact fun hb => hr.written ho h0 fun c hc => hb c (List.mem_append_left _ hc)

/-- A piece that makes no token is passed over. -/
theorem Reads.skip (hr : Reads line before s l) (h : Piece.first? cs = some (p, rest))
    (ht : s.token? l.opening p = .ok none) :
    PassedOver (chars before) (made before) rest p.text ∧ Reads line (before ++ [gap p.text]) (s.after p) l := by
  have hk := Piece.tokenKind?_none (Scanner.token?_none ht)
  have hw := Piece.written_first? h
  have ha := Stage.parens_of_skip ht
  have hs : s.parens = openParens (made before) := congrArg Scanner.parens hr.scanner
  refine ⟨?_, hr.after h rfl (by rw [ha]; exact (Int.add_zero _).symm), fun ho h0 => ?_⟩
  · rcases hk with hk | ⟨hk, hn⟩ | ⟨hk, hn⟩ <;> rw [hk] at hw
    · obtain ⟨ds, he, hd⟩ := hw
      rw [he]
      exact .comment hd (Piece.rest_comment h hk)
    · refine .blanks hw fun ⟨h0, hb⟩ => ?_
      rw [← hs] at h0
      have ho : l.opening = false := by simpa [h0] using hn
      exact hr.written ho h0 hb
    · exact .lineEnds hw (by rw [← hs]; simpa using hn)
  · rw [ha] at h0
    rw [chars_snoc]
    refine hr.written_after h (fun he => ?_) ho h0
    rcases hk with hk | ⟨hk, -⟩ | ⟨-, hn⟩
    · rw [hk] at he
      cases he
    · rw [hk] at he
      cases he
    · simp [h0] at hn

/-- A piece that makes a token is its lexeme. -/
theorem Reads.make {t : Token} (hr : Reads line before s l) (h : Piece.first? cs = some (p, rest))
    (ht : s.token? l.opening p = .ok (some t)) :
    t.Lexeme p.text ∧ t.pos = (chars before).length ∧ t.line = line + (chars before).count '\n' ∧
      Reads line (before ++ [token t p.text]) (s.after p) (l.step t).2 := by
  obtain ⟨hk, hv, hp⟩ := Scanner.token?_some ht
  obtain ⟨hl, hn⟩ := Piece.lexeme_tokenKind? (Piece.written_first? h) hk
  have hs := hr.scanner
  refine ⟨⟨hl, ?_⟩, by rw [hp, hs]; rfl, by rw [Scanner.token?_line ht, hs]; rfl,
    hr.after h rfl (Piece.parens_after s hk), fun ho _ => ?_⟩
  · unfold Piece.payload at hv
    split
    case isTrue hk => rwa [if_pos (hn.1 hk)] at hv
    case isFalse hk =>
      rw [if_neg (mt hn.2 hk)] at hv
      exact (Except.ok.inj hv).symm
  · -- Behind a blank or a line end the line is open, and all other pieces are no blanks.
    rcases Piece.tokenKind?_cases hk with ⟨-, hb, -⟩ | ⟨-, hb, -⟩ | ⟨hd, -⟩
    · rw [LineTracker.step_blank _ hb] at ho
      cases ho
    · rw [LineTracker.step_newline _ hb] at ho
      cases ho
    · obtain ⟨hne, hb⟩ := Piece.solid_covers hd (Piece.covers_first? h)
      rw [chars_snoc, Segment.text, lastLine_append _ hne]
      exact fun hb' => hb fun c hc => hb' c (List.mem_append_right _ hc)

end

/-! ## A whole text -/

/-- From any place on, a text without a fault is made of segments that fit. -/
theorem Reads.accounts {line : Nat} {before : List Segment} {s : Scanner} {l : LineTracker} {cs : List Char}
    (hr : Reads line before s l) (hf : (track s l (Piece.cut cs).2 (Piece.cut cs).1).fault = none) :
    ∃ segs, chars segs = cs ∧ Fitting line before segs ∧
      made segs = (track s l (Piece.cut cs).2 (Piece.cut cs).1).items.map (·.1.token) ∧
      (track s l (Piece.cut cs).2 (Piece.cut cs).1).last = place line (before ++ segs) := by
  fun_induction Piece.cut cs generalizing before s l with
  | case1 cs hn =>
    have hc : cs = [] := by simpa [track, Stream.ended] using hf
    exact ⟨[], hc.symm, .nil line before, rfl, by rw [List.append_nil]; exact hr.scanner⟩
  | case2 cs p rest h _ ps left hc ih =>
    rw [hc] at ih
    have he := (Piece.text_first? h).1
    rw [track] at hf ⊢
    cases ht : s.token? l.opening p with
    | error f =>
      rw [ht] at hf
      cases hf
    | ok o =>
      rw [ht] at hf
      cases o with
      | none =>
        obtain ⟨hp, hr'⟩ := hr.skip h ht
        obtain ⟨segs, rfl, hs, hm, hl⟩ := ih hr' hf
        refine ⟨gap p.text :: segs, he.symm, hs.cons hp, hm, ?_⟩
        rw [List.append_cons]
        exact hl
      | some t =>
        obtain ⟨hx, hp, hn, hr'⟩ := hr.make h ht
        obtain ⟨segs, rfl, hs, hm, hl⟩ := ih hr' hf
        refine ⟨token t p.text :: segs, he.symm, hs.cons ⟨hx, hp, hn⟩, ?_, ?_⟩
        · dsimp only [Stream.cons]
          rw [List.map_cons, ← hm, LineTracker.token_step]
          rfl
        · rw [List.append_cons]
          exact hl

/-- A text that is scanned to its end without a fault is, character by character, the lexemes of its tokens and the gaps
between them, in order. Each token stands at the count of the characters before it, on the line that the line ends
before it lead to. Each gap is a comment up to the end of its line, blanks that do not open a line outside of
parentheses, or line ends in parentheses. And the scanner has counted all of this, with the parentheses that are
opened less those that are closed. -/
theorem trackText_accounts (line : Nat) (text : List Char) (hf : (trackText line text).fault = none) :
    ∃ segs : List Segment, chars segs = text ∧ made segs = (trackText line text).items.map (·.1.token) ∧
      (∀ pre seg post, segs = pre ++ seg :: post → seg.Fits line pre post) ∧
      (trackText line text).last = ⟨text.length, line + text.count '\n',
        openParens ((trackText line text).items.map (·.1.token))⟩ := by
  obtain ⟨segs, rfl, hs, hm, hl⟩ := (Reads.start line).accounts hf
  refine ⟨segs, rfl, hm, hs, hl.trans ?_⟩
  rw [List.nil_append, place, hm]
  rfl

/-- A comment and a line end in parentheses, a line that opens with a tab, and one parenthesis too many, behind which
lines do not count. -/
def straying : List Char :=
  "x (# a\n  y)\n\tz ) # b\n w".toList

theorem trackText_accounts_straying :
    (trackText 3 straying).fault = none ∧
      (trackText 3 straying).items.map (fun x => (x.1.token.kind, x.1.token.line, x.1.token.pos)) =
        [(.name, 3, 0), (.leftParen, 3, 2), (.name, 4, 9), (.rightParen, 4, 10), (.newline, 4, 11), (.blank, 5, 12),
          (.name, 5, 13), (.rightParen, 5, 15), (.name, 6, 22)] ∧
      (trackText 3 straying).last = ⟨23, 6, -1⟩ ∧
      ∃ segs : List Segment, chars segs = straying ∧ (made segs).length = 9 ∧
        ∀ pre seg post, segs = pre ++ seg :: post → seg.Fits 3 pre post := by
  have he : ((trackText 3 straying).fault,
      (trackText 3 straying).items.map fun x => (x.1.token.kind, x.1.token.line, x.1.token.pos),
      (trackText 3 straying).last) =
      (none, [(.name, 3, 0), (.leftParen, 3, 2), (.name, 4, 9), (.rightParen, 4, 10), (.newline, 4, 11),
        (.blank, 5, 12), (.name, 5, 13), (.rightParen, 5, 15), (.name, 6, 22)], ⟨23, 6, -1⟩) := by cbv
  obtain ⟨hf, hi, hl⟩ : _ ∧ _ ∧ _ := by simpa only [Prod.mk.injEq] using he
  obtain ⟨segs, hc, hm, hs, -⟩ := trackText_accounts 3 straying hf
  refine ⟨hf, hi, hl, segs, hc, ?_, hs⟩
  rw [hm, List.length_map]
  simpa using congrArg List.length hi

end Pseudocode
