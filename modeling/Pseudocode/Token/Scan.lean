import Pseudocode.Number.Reading
import Pseudocode.Token.Piece

/-!
# From pieces to tokens

A scanner goes over the pieces of a text and counts characters, lines and open parentheses. It makes a
token of every piece but comments, blanks inside a line, and blanks and line ends inside parentheses.

Whether a blank opens its line is known from the tokens before it. A `LineTracker` keeps that, and also
which tokens open the block that a `then` or an `else` at the end of a line asks for. `track` lets the
scanner and the tracker run together. `collect` runs the scanner alone, with the plain rule that a line
opens after a line end or a blank, and `LineTracker.trackAll` runs the tracker over tokens in hand.
-/

namespace Pseudocode

/-- The largest count of digits that a whole number may have, read or written. -/
def digitLimit : Nat := 4300

/-- Where a scanner stands: characters and lines before it, and parentheses open. The last may be
negative, as nothing keeps a text from closing more than it opens. -/
structure Scanner where
  pos : Nat
  line : Nat
  parens : Int
deriving DecidableEq, Repr

namespace Scanner

/-- A scanner at the start of a text whose first line has the given number. -/
def start (line : Nat) : Scanner :=
  ⟨0, line, 0⟩

/-- The scanner behind a piece. -/
def after (s : Scanner) (p : Piece) : Scanner where
  pos := s.pos + p.text.length
  line := if p.kind = .lineEnds then s.line + p.text.length else s.line
  parens := match p.kind with
    | .leftParen => s.parens + 1
    | .rightParen => s.parens - 1
    | _ => s.parens

end Scanner

namespace Piece

/-- The kind of token that a word is. -/
def wordKind (w : String) : TokenKind :=
  match w with
  | "let" => .letWord
  | "be" => .beWord
  | "if" => .ifWord
  | "then" => .thenWord
  | "else" => .elseWord
  | "return" => .returnWord
  | "goto" => .gotoWord
  | "instruction" => .instructionWord
  | "print" => .printWord
  | "True" => .truth
  | "False" => .truth
  | _ => .name

/-- The number that a text of digits stands for: whole without a point, else the nearest fraction. -/
def numberOf (text : List Char) : Except ReadFault Payload :=
  let whole := text.takeWhile (· != '.')
  match text.dropWhile (· != '.') with
  | [] =>
    if digitLimit < whole.length then .error (.longLiteral whole.length)
    else .ok (.whole (Text.numeral whole))
  | _ :: places => .ok (.real (Number.ofPlaces whole places))

/-- The kind of token that a piece makes, if it makes one: `opening` says whether the piece stands at
the start of its line, and `nested` whether it stands inside parentheses. -/
def tokenKind? (p : Piece) (opening nested : Bool) : Option TokenKind :=
  match p.kind with
  | .word => some (wordKind (String.ofList p.text))
  | .number => some .number
  | .blanks => if opening && !nested then some .blank else none
  | .lineEnds => if nested then none else some .newline
  | .leftParen => some .leftParen
  | .rightParen => some .rightParen
  | .string => some .string
  | .comma => some .comma
  | .marker => some .marker
  | .plus => some .plus
  | .minus => some .minus
  | .times => some .times
  | .divide => some .divide
  | .comparison => some .comparison
  | .comment => none

/-- What the token of a piece carries. -/
def payload (p : Piece) : Except ReadFault Payload :=
  if p.kind = .number then numberOf p.text else .ok (.text (String.ofList p.text))

end Piece

/-- The token that a scanner makes of the piece in front of it, if it makes one. -/
def Scanner.token? (s : Scanner) (opening : Bool) (p : Piece) : Except ReadFault (Option Token) :=
  match p.tokenKind? opening (s.parens != 0) with
  | none => .ok none
  | some kind => p.payload.map fun payload => some ⟨kind, payload, s.line, s.pos⟩

/-- Items in order, why there are no more of them if something is wrong, and where the scanner stands
then. -/
structure Stream (α : Type) where
  items : List α
  fault : Option ReadFault
  last : Scanner

namespace Stream

variable {α : Type}

/-- A stream with one more item in front. -/
def cons (a : α) (s : Stream α) : Stream α :=
  ⟨a :: s.items, s.fault, s.last⟩

/-- A stream without items, over a text of which some characters may be left. -/
def ended (s : Scanner) (left : List Char) : Stream α :=
  ⟨[], left.head?.map .unknownSymbol, s⟩

end Stream

/-- Whether a block may begin: not here; once the line ends; or with the next token of a line. -/
inductive BlockWait where
  | no
  | atLineEnd
  | now
deriving DecidableEq, Repr

/-- What is known of the line while tokens go by. -/
structure LineTracker where
  /-- Nothing but blanks was seen on this line. -/
  opening : Bool
  wait : BlockWait
deriving DecidableEq, Repr

/-- A token with what its line says about it. -/
structure Tracked where
  token : Token
  /-- Nothing but blanks stands before it on its line. -/
  opening : Bool
  /-- It has to open a block. -/
  opensBlock : Bool
deriving DecidableEq

namespace LineTracker

/-- The start of a text. -/
def start : LineTracker :=
  ⟨true, .no⟩

/-- Puts down what the line says about a token, and goes on behind it. -/
def step (t : LineTracker) (token : Token) : Tracked × LineTracker :=
  match token.kind with
  | .thenWord | .elseWord => (⟨token, t.opening, false⟩, ⟨false, .atLineEnd⟩)
  | .newline =>
    (⟨token, t.opening, false⟩, ⟨true, if t.wait = .atLineEnd then .now else t.wait⟩)
  | .blank => (⟨token, t.opening, false⟩, ⟨true, t.wait⟩)
  | _ => (⟨token, t.opening, t.wait = .now⟩, ⟨false, .no⟩)

/-- Tracks a list of tokens. -/
def trackAll (t : LineTracker) : List Token → List Tracked
  | [] => []
  | token :: rest => (t.step token).1 :: trackAll (t.step token).2 rest

end LineTracker

/-- Scans and tracks together: each token comes with where the scanner stands behind it. -/
def track (s : Scanner) (t : LineTracker) (left : List Char) : List Piece → Stream (Tracked × Scanner)
  | [] => .ended s left
  | p :: rest =>
    match s.token? t.opening p with
    | .error fault => ⟨[], some fault, s.after p⟩
    | .ok none => track (s.after p) t left rest
    | .ok (some token) =>
      .cons ((t.step token).1, s.after p) (track (s.after p) (t.step token).2 left rest)

/-- Scans a whole text, whose first line has the given number, tracking its lines. -/
def trackText (line : Nat) (text : List Char) : Stream (Tracked × Scanner) :=
  let pieces := Piece.cut text
  track (Scanner.start line) LineTracker.start pieces.2 pieces.1

/-- Scans alone: a line opens after a line end or a blank. -/
def collect (s : Scanner) (opening : Bool) (left : List Char) : List Piece → Stream Token
  | [] => .ended s left
  | p :: rest =>
    match s.token? opening p with
    | .error fault => ⟨[], some fault, s.after p⟩
    | .ok none => collect (s.after p) opening left rest
    | .ok (some token) =>
      .cons token (collect (s.after p) (token.kind == .newline || token.kind == .blank) left rest)

/-- Scans a whole text, whose first line has the given number, without a tracker. -/
def collectText (line : Nat) (text : List Char) : Stream Token :=
  let pieces := Piece.cut text
  collect (Scanner.start line) true pieces.2 pieces.1

end Pseudocode
