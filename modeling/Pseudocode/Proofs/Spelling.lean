import Mathlib
import Pseudocode.Proofs.JoinedProgram
import Pseudocode.Proofs.Numeral

/-!
# Texts of one line, piece by piece

`Lexes cs ts` says that characters make up tokens with the contents `ts`, whatever comes behind them, as long as it
stands apart (`Apart`): then no piece of one reaches into the other. Words, numbers, string literals and operators lex
to one token each (`lexes_word`, `lexes_number`, `lexes_literal`, `lexes_binary`, `lexes_comparing`), and what lexes can
be joined with a space or put in parentheses. A line that lexes to tokens which the reader takes is the text of a
program: `Lexes.spells`.
-/

namespace Pseudocode

/-- What a token says. -/
abbrev Content : Type := TokenKind × Payload

/-- The rest of a text that goes on with no word, number or operator before it. -/
def Apart (rest : List Char) : Prop :=
  ∀ c ∈ rest.head?, c = ' ' ∨ c = ')'

theorem apart_nil : Apart [] :=
  nofun

theorem apart_space (rest : List Char) : Apart (' ' :: rest) := by
  rintro _ ⟨⟩
  exact .inl rfl

theorem apart_paren (rest : List Char) : Apart (')' :: rest) := by
  rintro _ ⟨⟩
  exact .inr rfl

theorem Apart.head_false {rest : List Char} (h : Apart rest) {q : Char → Bool} (hs : q ' ' = false)
    (hp : q ')' = false) : ∀ c ∈ rest.head?, q c = false := by
  intro c hc
  rcases h c hc with rfl | rfl
  · exact hs
  · exact hp

theorem Apart.ne_cons {rest : List Char} (h : Apart rest) {c : Char} (hs : c ≠ ' ') (hp : c ≠ ')') (more : List Char) :
    rest ≠ c :: more := by
  rintro rfl
  rcases h c rfl with rfl | rfl
  · exact hs rfl
  · exact hp rfl

namespace Piece

/-! ## Pieces that end where something else begins -/

theorem run_stops (kind : PieceKind) {q : Char → Bool} (c : Char) {cs rest : List Char} (hq : ∀ d ∈ cs, q d = true)
    (hr : ∀ c ∈ rest.head?, q c = false) : run kind q c (cs ++ rest) = (⟨kind, c :: cs⟩, rest) := by
  rw [run, (stops_at hq hr).1, (stops_at hq hr).2]

/-- Characters that make up one word. -/
def isWord : List Char → Bool
  | [] => false
  | c :: cs => opensWord c && cs.all inWord

theorem first?_word {cs rest : List Char} (h : isWord cs = true) (hr : Apart rest) :
    first? (cs ++ rest) = some (⟨.word, cs⟩, rest) := by
  cases cs with
  | nil => cases h
  | cons c cs =>
    rw [isWord, Bool.and_eq_true, List.all_eq_true] at h
    rw [List.cons_append, first?, if_pos h.1, run_stops _ _ h.2 (hr.head_false rfl rfl)]

theorem opensWord_digit {c : Char} (h : c.isDigit = true) : opensWord c = false := by
  have h₉ : c.val.toNat ≤ 57 := (Char.isDigit_iff_toNat.1 h).2
  rw [Bool.eq_false_iff]
  intro hw
  simp only [opensWord, Char.isAlpha, Char.isUpper, Char.isLower, Bool.or_eq_true, Bool.and_eq_true,
    decide_eq_true_eq, beq_iff_eq, UInt32.le_iff_toNat_le, ge_iff_le] at hw
  rcases hw with (⟨hu, -⟩ | ⟨hl, -⟩) | rfl
  · exact absurd (hu.trans h₉) (by decide)
  · exact absurd (hl.trans h₉) (by decide)
  · cases h

theorem first?_number {c : Char} {cs rest : List Char} (hc : c.isDigit = true) (hs : ∀ d ∈ cs, d.isDigit = true)
    (hr : Apart rest) : first? (c :: (cs ++ rest)) = some (⟨.number, c :: cs⟩, rest) := by
  have hd : ∀ {d : Char}, d.isDigit = true → Text.isDigit d = true := by
    intro d h
    rw [Text.isDigit, digitValue?_digit h]
    rfl
  obtain ⟨ht, hw⟩ := stops_at (fun d h => hd (hs d h)) (hr.head_false rfl rfl)
  have hf : fraction rest = ([], rest) := fraction_other fun d more => hr.ne_cons (by decide) (by decide) _
  rw [first?, if_neg (by simp [opensWord_digit hc]), if_pos (hd hc), numberRun]
  simp [ht, hw, hf]

theorem stringBody_quotable {cs : List Char} (h : Quotable cs) (rest : List Char) :
    stringBody (cs ++ '"' :: rest) = some (cs ++ ['"'], rest) := by
  induction h with
  | nil => rfl
  | plain hq hb hn _ ih => simp [stringBody, ih]
  | escaped hn _ ih => simp [stringBody, ih]

theorem first?_literal {cs : List Char} (h : Quotable cs) (rest : List Char) :
    first? ('"' :: (cs ++ '"' :: rest)) = some (⟨.string, '"' :: (cs ++ ['"'])⟩, rest) := by
  have hm : first? ('"' :: (cs ++ '"' :: rest)) = mark? '"' (cs ++ '"' :: rest) := rfl
  rw [hm, mark?, stringBody_quotable h]
  rfl

theorem first?_space {cs : List Char} (h : cs.head? ≠ some ' ') : first? (' ' :: cs) = some (⟨.blanks, [' ']⟩, cs) := by
  have hs : ∀ c ∈ cs.head?, (c == ' ') = false := by
    intro c hc
    rw [beq_eq_false_iff_ne]
    rintro rfl
    exact h hc
  have hm : first? (' ' :: cs) = some (run .blanks (· == ' ') ' ' ([] ++ cs)) := rfl
  rw [hm, run_stops _ _ (List.forall_mem_nil _) hs]

theorem first?_order {c : Char} (hc : c = '<' ∨ c = '>') {rest : List Char} (hr : Apart rest) :
    first? (c :: rest) = some (⟨.comparison, [c]⟩, rest) := by
  have hn : ∀ more, rest ≠ '=' :: more := hr.ne_cons (by decide) (by decide)
  rcases hc with rfl | rfl
  · exact comparison?_other hn '<'
  · exact comparison?_other hn '>'

/-! ## What pieces say -/

/-- A piece makes a token wherever it stands. -/
structure Says (p : Piece) (x : Content) : Prop where
  solid : p.kind.isSolid
  kind : ∀ opening nested, p.tokenKind? opening nested = some x.1
  payload : p.payload = .ok x.2

/-- Pieces that make tokens, with at most a blank between them. -/
inductive Yields : List Piece → List Content → Prop
  | single {p : Piece} {x : Content} (h : Says p x) : Yields [p] [x]
  | next {p : Piece} {x : Content} {ps : List Piece} {ts : List Content} (h : Says p x) (hs : Yields ps ts) :
      Yields (p :: ps) (x :: ts)
  | spaced {p b : Piece} {x : Content} {ps : List Piece} {ts : List Content} (h : Says p x) (hb : b.kind = .blanks)
      (hs : Yields ps ts) : Yields (p :: b :: ps) (x :: ts)

theorem Yields.append {ps qs : List Piece} {ts us : List Content} (h : Yields ps ts) (h' : Yields qs us) :
    Yields (ps ++ qs) (ts ++ us) := by
  induction h with
  | single h => exact .next h h'
  | next h _ ih => exact .next h ih
  | spaced h hb _ ih => exact .spaced h hb ih

theorem Yields.append_spaced {ps qs : List Piece} {ts us : List Content} {b : Piece} (h : Yields ps ts)
    (hb : b.kind = .blanks) (h' : Yields qs us) : Yields (ps ++ b :: qs) (ts ++ us) := by
  induction h with
  | single h => exact .spaced h hb h'
  | next h _ ih => exact .next h ih
  | spaced h hb' _ ih => exact .spaced h hb' ih

end Piece

namespace Stage

open Piece

/-- A piece that makes a token where no block opens or closes. -/
theorem next_says {s : Stage} {p : Piece} {x : Content} (h : Says p x) (hw : s.tracker.wait ≠ .now)
    (hd : s.tracker.opening = true → s.indenter.depth = s.indenter.level) :
    ∃ s', s.next p = .ok s' ∧ s'.out.map Token.content = s.out.map Token.content ++ [x] ∧
      s'.indenter.levels = s.indenter.levels ∧ s'.tracker.opening = false ∧ s'.tracker.wait ≠ .now := by
  obtain ⟨t, ht⟩ : ∃ t : Token, t = ⟨x.1, x.2, s.scanner.line, s.scanner.pos⟩ := ⟨_, rfl⟩
  have hx : t.content = x := by rw [ht]; rfl
  have hm : Makes s p t := by
    unfold Makes Scanner.token?
    rw [h.kind, h.payload, ht]
    rfl
  have hk : t.kind.isReal := by
    rcases hm.cases with ⟨hk, -⟩ | ⟨hk, -⟩ | ⟨-, hk⟩
    · exact absurd h.solid (by rw [hk]; nofun)
    · exact absurd h.solid (by rw [hk]; nofun)
    · exact hk
  have hb : (!t.kind.asksBlock && s.tracker.wait = .now) = false := by simp [hw]
  have hi : s.indenter.real ⟨t, s.tracker.opening, false⟩ =
      .ok ([t], ⟨s.indenter.levels, s.indenter.depth, false⟩) := by
    unfold Indenter.real
    cases ho : s.tracker.opening with
    | false => rfl
    | true => simp [hd ho]
  have hn : s.next p = .ok ⟨s.scanner.after p, ⟨false, if t.kind.asksBlock then .atLineEnd else .no⟩,
      ⟨s.indenter.levels, s.indenter.depth, false⟩, s.out ++ [t]⟩ := by
    rw [next_eq hm, LineTracker.step_real _ hk, hb, Indenter.step_real _ hk, hi]
  refine ⟨_, hn, by simp [hx], rfl, rfl, ?_⟩
  dsimp only
  split <;> nofun

/-- A blank behind a token does nothing. -/
theorem next_blanks {s : Stage} {b : Piece} (hb : b.kind = .blanks) (ho : s.tracker.opening = false) :
    s.next b = .ok { s with scanner := s.scanner.after b } := by
  refine next_skip ?_
  unfold Scanner.token? tokenKind?
  rw [hb, ho]
  rfl

theorem run_yields {s : Stage} {ps : List Piece} {ts : List Content} (h : Yields ps ts) (hw : s.tracker.wait ≠ .now)
    (hd : s.tracker.opening = true → s.indenter.depth = s.indenter.level) :
    ∃ s', s.run ps = .ok s' ∧ s'.out.map Token.content = s.out.map Token.content ++ ts ∧
      s'.indenter.levels = s.indenter.levels := by
  induction h generalizing s with
  | single h =>
    obtain ⟨s', hn, ho, hl, -⟩ := next_says h hw hd
    exact ⟨s', run_cons hn rfl, ho, hl⟩
  | next h _ ih =>
    obtain ⟨s₁, hn, ho, hl, hop, hw₁⟩ := next_says h hw hd
    obtain ⟨s', hr, ho', hl'⟩ := ih hw₁ fun hp => by rw [hop] at hp; cases hp
    exact ⟨s', run_cons hn hr, by rw [ho', ho]; simp, hl'.trans hl⟩
  | spaced h hb _ ih =>
    obtain ⟨s₁, hn, ho, hl, hop, hw₁⟩ := next_says h hw hd
    obtain ⟨s', hr, ho', hl'⟩ := @ih { s₁ with scanner := s₁.scanner.after _ } hw₁ fun hp => by rw [hop] at hp; cases hp
    exact ⟨s', run_cons hn (run_cons (next_blanks hb hop) hr), by rw [ho', ho]; simp, hl'.trans hl⟩

end Stage

/-! ## What characters say -/

/-- Characters that say some tokens, whatever comes behind them and stands apart. -/
structure Lexes (cs : List Char) (ts : List Content) : Prop where
  ne_nil : cs ≠ []
  head : cs.head? ≠ some ' '
  cut : ∀ rest, Apart rest → ∃ ps, Piece.cut (cs ++ rest) = (ps ++ (Piece.cut rest).1, (Piece.cut rest).2) ∧
    Piece.Yields ps ts

namespace Lexes

open Piece

variable {cs ds : List Char} {ts us : List Content}

theorem of_first? (p : Piece) {x : Content} (hne : p.text ≠ []) (hh : p.text.head? ≠ some ' ') (hx : Says p x)
    (hf : ∀ rest, Apart rest → first? (p.text ++ rest) = some (p, rest)) : Lexes p.text [x] := by
  refine ⟨hne, hh, fun rest hr => ⟨[p], cut_of_first? (hf rest hr), .single hx⟩⟩

/-- A sign in front that is a piece by itself. -/
theorem cons {c : Char} {x : Content} (h : Lexes cs ts) (p : Piece) (hc : c ≠ ' ') (hx : Says p x)
    (hf : ∀ rest, first? (c :: rest) = some (p, rest)) : Lexes (c :: cs) (x :: ts) := by
  refine ⟨nofun, by simpa using hc, fun rest hr => ?_⟩
  obtain ⟨ps, hc, hs⟩ := h.cut rest hr
  refine ⟨p :: ps, ?_, .next hx hs⟩
  rw [List.cons_append, cut_of_first? (hf _), hc]
  rfl

/-- A space between. -/
theorem space (h : Lexes cs ts) (h' : Lexes ds us) : Lexes (cs ++ ' ' :: ds) (ts ++ us) := by
  refine ⟨by simp, ?_, fun rest hr => ?_⟩
  · rw [List.head?_append_of_ne_nil _ h.ne_nil]
    exact h.head
  · obtain ⟨qs, hc', hs'⟩ := h'.cut rest hr
    obtain ⟨ps, hc, hs⟩ := h.cut _ (apart_space (ds ++ rest))
    have hd : (ds ++ rest).head? ≠ some ' ' := by
      rw [List.head?_append_of_ne_nil _ h'.ne_nil]
      exact h'.head
    refine ⟨ps ++ ⟨.blanks, [' ']⟩ :: qs, ?_, hs.append_spaced rfl hs'⟩
    rw [List.append_assoc, List.cons_append, hc, cut_of_first? (first?_space hd), hc']
    simp

/-- A parenthesis behind. -/
theorem close (h : Lexes cs ts) : Lexes (cs ++ [')']) (ts ++ [(.rightParen, .text ")")]) := by
  refine ⟨by simp, ?_, fun rest hr => ?_⟩
  · rw [List.head?_append_of_ne_nil _ h.ne_nil]
    exact h.head
  · obtain ⟨ps, hc, hs⟩ := h.cut _ (apart_paren rest)
    have hp : first? (')' :: rest) = some (⟨.rightParen, [')']⟩, rest) := rfl
    refine ⟨ps ++ [⟨.rightParen, [')']⟩], ?_, hs.append (.single ⟨rfl, fun _ _ => rfl, rfl⟩)⟩
    rw [List.append_assoc, List.singleton_append, hc, cut_of_first? hp]
    simp

end Lexes

open Piece

theorem lexes_word {w : String} (h : isWord w.toList = true) : Lexes w.toList [(wordKind w, .text w)] := by
  have hx : Says ⟨.word, w.toList⟩ (wordKind w, .text w) := by
    refine ⟨rfl, fun _ _ => ?_, ?_⟩
    · simp [tokenKind?]
    · simp [payload]
  refine Lexes.of_first? ⟨.word, w.toList⟩ ?_ ?_ hx fun rest hr => first?_word h hr
  · intro hn
    rw [show w.toList = [] from hn] at h
    cases h
  · intro hs
    obtain ⟨cs, hc⟩ := List.head?_eq_some_iff.1 hs
    rw [show w.toList = ' ' :: cs from hc] at h
    cases h

theorem lexes_literal {s : String} (h : IsLiteral s) : Lexes s.toList [(.string, .text s)] := by
  obtain ⟨cs, hq, hs⟩ := h
  have hx : Says ⟨.string, s.toList⟩ (.string, .text s) := ⟨rfl, fun _ _ => rfl, by simp [payload]⟩
  refine Lexes.of_first? ⟨.string, s.toList⟩ (by simp [hs]) (by simp [hs]) hx fun rest _ => ?_
  simp only [hs, List.cons_append, List.append_assoc, List.nil_append]
  exact first?_literal hq rest

theorem numberOf_digits {cs : List Char} (hs : ∀ c ∈ cs, c.isDigit = true) (hl : cs.length ≤ digitLimit) :
    numberOf cs = .ok (.whole (Text.numeral cs)) := by
  have hd : ∀ c ∈ cs, (c != '.') = true := by
    intro c hc
    rw [bne_iff_ne]
    rintro rfl
    cases hs _ hc
  obtain ⟨ht, hw⟩ := @stops_at _ cs [] hd nofun
  rw [List.append_nil] at ht hw
  rw [numberOf, ht, hw]
  exact if_neg (Nat.not_lt.2 hl)

theorem lexes_number {n : Nat} (h : (toString n).length ≤ digitLimit) :
    Lexes (toString n).toList [(.number, .whole n)] := by
  have hl : (toString n).toList = Nat.toDigits 10 n := by
    rw [Nat.toString_eq_ofList_toDigits, String.toList_ofList]
  have hs : ∀ c ∈ Nat.toDigits 10 n, c.isDigit = true := fun c hc =>
    Nat.isDigit_of_mem_toDigits (by decide) (by decide) hc
  have hx : Says ⟨.number, Nat.toDigits 10 n⟩ (.number, .whole n) := by
    refine ⟨rfl, fun _ _ => rfl, ?_⟩
    rw [payload, if_pos rfl, numberOf_digits hs, numeral_toDigits]
    rwa [← hl, String.length_toList]
  rw [hl]
  obtain ⟨c, cs, hc⟩ := List.exists_cons_of_ne_nil (Nat.toDigits_ne_nil (n := n) (b := 10))
  rw [hc] at hs hx ⊢
  refine Lexes.of_first? ⟨.number, c :: cs⟩ (List.cons_ne_nil c cs) ?_ hx fun rest hr => ?_
  · rintro ⟨⟩
    cases hs ' ' List.mem_cons_self
  · exact first?_number (hs c List.mem_cons_self) (fun d hd => hs d (List.mem_cons_of_mem _ hd)) hr

/-- The kind of token that an operator is. -/
def signKind (op : String) : TokenKind :=
  match op with
  | "+" => .plus
  | "-" => .minus
  | "*" => .times
  | "/" => .divide
  | _ => .comparison

theorem lexes_binary {op : String} (h : Tree.isBinary op) : Lexes op.toList [(signKind op, .text op)] := by
  simp only [Tree.isBinary, Bool.or_eq_true, beq_iff_eq] at h
  rcases h with ((rfl | rfl) | rfl) | rfl
  · exact Lexes.of_first? ⟨.plus, ['+']⟩ (by decide) (by decide) ⟨rfl, fun _ _ => rfl, rfl⟩ fun _ _ => rfl
  · exact Lexes.of_first? ⟨.minus, ['-']⟩ (by decide) (by decide) ⟨rfl, fun _ _ => rfl, rfl⟩ fun _ _ => rfl
  · exact Lexes.of_first? ⟨.times, ['*']⟩ (by decide) (by decide) ⟨rfl, fun _ _ => rfl, rfl⟩ fun _ _ => rfl
  · exact Lexes.of_first? ⟨.divide, ['/']⟩ (by decide) (by decide) ⟨rfl, fun _ _ => rfl, rfl⟩ fun _ _ => rfl

theorem lexes_comparing {op : String} (h : Tree.isComparing op) : Lexes op.toList [(.comparison, .text op)] := by
  have hx : Says ⟨.comparison, op.toList⟩ (.comparison, .text op) := ⟨rfl, fun _ _ => rfl, by simp [payload]⟩
  simp only [Tree.isComparing, Bool.or_eq_true, beq_iff_eq] at h
  rcases h with ((((rfl | rfl) | rfl) | rfl) | rfl) | rfl
  · exact Lexes.of_first? _ (by decide) (by decide) hx fun _ _ => rfl
  · exact Lexes.of_first? _ (by decide) (by decide) hx fun _ _ => rfl
  · exact Lexes.of_first? _ (by decide) (by decide) hx fun _ hr => first?_order (.inr rfl) hr
  · exact Lexes.of_first? _ (by decide) (by decide) hx fun _ hr => first?_order (.inl rfl) hr
  · exact Lexes.of_first? _ (by decide) (by decide) hx fun _ _ => rfl
  · exact Lexes.of_first? _ (by decide) (by decide) hx fun _ _ => rfl

/-! ## Reading a line -/

/-- A reader takes tokens that say this, wherever they stand. -/
def Reader.Takes (r : Reader) (ts : List Content) (r' : Reader) : Prop :=
  ∀ us : List Token, us.map Token.content = ts → r.feedAll us = .ok r'

/-- A line that the reader takes, and at whose end it is done, is the text of a program. -/
theorem Lexes.spells {cs : List Char} {ts : List Content} (h : Lexes cs ts) {r : Reader}
    (hr : Reader.start.Takes ts r) {program : List Tree} (he : r.Ends 0 program.reverse) : Spells cs program := by
  obtain ⟨ps, hc, hs⟩ := h.cut [] apart_nil
  rw [List.append_nil, @cut_of_none [] rfl] at hc
  obtain ⟨s, hrun, ho, hl⟩ := Stage.run_yields (s := .start 1) hs nofun fun _ => rfl
  refine ⟨congrArg Prod.snd hc, s, r, ?_, hr _ ho, ?_⟩
  · rw [hc, List.append_nil]
    exact hrun
  · rw [hl]
    exact he

end Pseudocode
