import Pseudocode.Token.Layout

/-!
# Lexers

A lexer is given texts and hands out their tokens one by one. It scans no further than it has to, so what
it counts is what stands before the token asked for. A new text takes the place of what was left of the
old one. Lines are counted on over all texts; characters and parentheses are counted for each text anew,
and the first token of a text is looked for at the start of a line.
-/

namespace Pseudocode

/-- What is known of a text between two of its tokens. -/
structure Progress where
  /-- Whether an end marker is asked for. -/
  mark : Bool
  tracker : LineTracker
  indenter : Indenter
  /-- The line of the last token read. -/
  seen : Option Nat
  /-- The line of the last token handed out. -/
  put : Option Nat
  /-- Tokens that the last token read has turned into, and that were not handed out yet. -/
  waiting : List Token

namespace Progress

/-- The start of a text. -/
def start (mark : Bool) : Progress :=
  ⟨mark, .start, .start, none, none, []⟩

/-- The tokens behind the last one of a text. -/
def closing (p : Progress) : List Token :=
  let dedents := p.indenter.finish (p.seen.getD 1)
  if p.mark then dedents ++ [endMarker ((dedents.getLast?.map Token.line).or p.put)] else dedents

end Progress

/-- How far a lexer is with its text. -/
inductive LexerPhase where
  /-- There is no text. -/
  | noText
  /-- No token of the text was asked for. -/
  | given (mark : Bool)
  /-- Tokens are made of the text. -/
  | running (p : Progress)
  /-- The text is at its end, and these are the last tokens. -/
  | closing (waiting : List Token)

/-- A lexer: where its scanner stands, what is left of the text, whether nothing but blanks was seen on
the line, and how far it is with the text. -/
structure Lexer extends Scanner where
  rest : List Char
  opening : Bool
  phase : LexerPhase

/-- What a lexer answers when it is asked for a token. -/
inductive Pulled where
  /-- The lexer was never given a text. -/
  | noText
  /-- The text has no more tokens. -/
  | finished
  | token (t : Token)
  | fault (f : ReadFault)

namespace Lexer

/-- A lexer that was never used. -/
def fresh : Lexer :=
  ⟨.start 1, [], false, .noText⟩

/-- Gives a lexer a text. -/
def input (l : Lexer) (mark : Bool) (text : List Char) : Lexer :=
  ⟨.start l.line, text, l.opening, .given mark⟩

/-- The lexer behind the piece in front of it. -/
def pass (l : Lexer) (p : Piece) (rest : List Char) : Lexer :=
  { l with toScanner := l.toScanner.after p, rest }

/-- Scans up to the next token, or to the end of the text. -/
def scan (l : Lexer) : Except ReadFault (Option Token) × Lexer :=
  match h : Piece.first? l.rest with
  | none =>
    match l.rest with
    | [] => (.ok none, l)
    | c :: _ => (.error (.unknownSymbol c), l)
  | some (p, rest) =>
    have := Piece.length_first? h
    match l.token? l.opening p with
    | .error f => (.error f, l.pass p rest)
    | .ok (some t) => (.ok (some t), l.pass p rest)
    | .ok none => (l.pass p rest).scan
termination_by l.rest.length
decreasing_by exact this

/-- Hands out the first of the last tokens. -/
def close (l : Lexer) : List Token → Pulled × Lexer
  | [] => (.finished, { l with phase := .closing [] })
  | t :: more => (.token t, { l with phase := .closing more })

/-- Ends a text at a fault. -/
def fail (l : Lexer) (f : ReadFault) : Pulled × Lexer :=
  (.fault f, { l with phase := .closing [] })

theorem length_scan {l l' : Lexer} {t : Token} (h : l.scan = (.ok (some t), l')) :
    l'.rest.length < l.rest.length := by
  fun_induction scan l with
  | case1 l _ hr => cases h
  | case2 l _ c cs hr => cases h
  | case3 l p rest _ hlt f _ => cases h
  | case4 l p rest _ hlt t _ =>
    cases h
    exact hlt
  | case5 l p rest _ hlt _ ih => exact Nat.lt_trans (ih h) hlt

/-- Hands out a token that waits; if there is none, goes on with the text until there is. -/
def advance (l : Lexer) (p : Progress) : Pulled × Lexer :=
  match p.waiting with
  | t :: more => (.token t, { l with phase := .running { p with put := some t.line, waiting := more } })
  | [] =>
    match h : { l with opening := p.tracker.opening }.scan with
    | (.error f, l) => l.fail f
    | (.ok none, l) => l.close p.closing
    | (.ok (some t), l) =>
      have := length_scan h
      let (tracked, tracker) := p.tracker.step t
      match p.indenter.step tracked with
      | .error f => l.fail f
      | .ok (waiting, indenter) =>
        l.advance { p with tracker, indenter, seen := some t.line, waiting }
termination_by l.rest.length
decreasing_by exact this

/-- Asks a lexer for a token. After a fault the text counts as finished. -/
def pull (l : Lexer) : Pulled × Lexer :=
  match l.phase with
  | .noText => (.noText, l)
  | .given mark => l.advance (.start mark)
  | .running p => l.advance p
  | .closing waiting => l.close waiting

/-- What a lexer has ahead of it: the end of its text, the characters before that and the tokens that
wait. Every token that is handed out makes it less. -/
def ahead (l : Lexer) : Nat × Nat × Nat :=
  match l.phase with
  | .noText => (0, 0, 0)
  | .given _ => (2, 0, 0)
  | .running p => (1, l.rest.length, p.waiting.length)
  | .closing waiting => (0, 0, waiting.length)

theorem ahead_advance {l l' : Lexer} {p : Progress} {t : Token} (h : l.advance p = (.token t, l')) :
    Prod.Lex (· < ·) (Prod.Lex (· < ·) (· < ·)) l'.ahead (1, l.rest.length, p.waiting.length) := by
  fun_induction advance l p with
  | case1 l p u more hw =>
    cases h
    rw [hw]
    exact .right _ (.right _ (Nat.lt_succ_self _))
  | case2 l p hw f m hs => cases h
  | case3 l p hw m hs =>
    cases hc : p.closing with
    | nil =>
      rw [hc] at h
      cases h
    | cons u more =>
      rw [hc] at h
      cases h
      exact .left _ _ Nat.zero_lt_one
  | case4 l p hw u m hs hlt tracked tracker ht f hf => cases h
  | case5 l p hw u m hs hlt tracked tracker ht waiting indenter hi ih =>
    have hm := ih h
    generalize l'.ahead = a at hm
    rcases hm with ⟨_, _, hp⟩ | ⟨_, ⟨_, _, hr⟩ | ⟨_, hr⟩⟩
    · exact .left _ _ hp
    · exact .right _ (.left _ _ (Nat.lt_trans hr hlt))
    · exact .right _ (.left _ _ hlt)

theorem ahead_pull {l l' : Lexer} {t : Token} (h : l.pull = (.token t, l')) :
    Prod.Lex (· < ·) (Prod.Lex (· < ·) (· < ·)) l'.ahead l.ahead := by
  unfold pull at h
  cases hp : l.phase with
  | noText =>
    rw [hp] at h
    cases h
  | given mark =>
    rw [hp] at h
    have ha := ahead_advance h
    rw [show l.ahead = (2, 0, 0) by rw [ahead, hp]]
    generalize l'.ahead = a at ha
    rcases ha with ⟨_, _, hp⟩ | ⟨_, _⟩
    · exact .left _ _ (Nat.lt_succ_of_lt hp)
    · exact .left _ _ (Nat.lt_succ_self 1)
  | running p =>
    rw [hp] at h
    have ha := ahead_advance h
    rwa [show l.ahead = (1, l.rest.length, p.waiting.length) by rw [ahead, hp]]
  | closing waiting =>
    rw [hp] at h
    cases waiting with
    | nil => cases h
    | cons u more =>
      cases h
      rw [show l.ahead = (0, 0, more.length + 1) by rw [ahead, hp]; rfl]
      exact .right _ (.right _ (Nat.lt_succ_self _))

/-- Asks a lexer for a number of tokens, up to the first fault. -/
def pulls (l : Lexer) : Nat → List Pulled × Lexer
  | 0 => ([], l)
  | n + 1 =>
    match l.pull with
    | (.noText, l) => ([.noText], l)
    | (.fault f, l) => ([.fault f], l)
    | (p, l) =>
      let (more, l) := l.pulls n
      (p :: more, l)

end Lexer

end Pseudocode
