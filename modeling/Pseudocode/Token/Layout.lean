import Pseudocode.Token.Scan

/-!
# Layout

The indentation of lines becomes tokens: an indent opens a block and a dedent closes it. Blanks are
dropped, and so are the line ends of lines that hold nothing but blanks and comments. A block opens
only where a `then` or an `else` ends its line; all its lines stand at one depth, deeper than the lines
around it.
-/

namespace Pseudocode

/-- The open blocks and the line at hand. -/
structure Indenter where
  /-- The depths of the open blocks, innermost first; the last is that of the whole text. -/
  levels : List Nat
  /-- The depth of the line at hand. -/
  depth : Nat
  /-- Blanks were seen, and no token since. -/
  afterBlank : Bool
deriving DecidableEq, Repr

namespace Indenter

/-- The start of a text. -/
def start : Indenter :=
  ⟨[0], 0, false⟩

/-- The depth of the innermost block. -/
def level (d : Indenter) : Nat :=
  d.levels.headD 0

/-- The width of a blank. -/
def width (token : Token) : Nat :=
  match token.payload with
  | .text s => s.length
  | _ => 0

/-- Dedents, all on one line. -/
def dedents (n line : Nat) : List Token :=
  List.replicate n (.ofLayout .dedent line)

/-- A token other than a blank or a line end: opens or closes the blocks that its line asks for. -/
def real (d : Indenter) (t : Tracked) : Except ReadFault (List Token × Indenter) :=
  if t.opensBlock then
    if d.level < d.depth then
      .ok ([.ofLayout .indent t.token.line, t.token], ⟨d.depth :: d.levels, d.depth, false⟩)
    else .error .blockExpected
  else if t.opening then
    if d.depth = d.level then .ok ([t.token], ⟨d.levels, d.depth, false⟩)
    else if d.level < d.depth then .error .deeperLine
    else if d.depth ∈ d.levels then
      let closed := d.levels.takeWhile (d.depth < ·)
      .ok (dedents closed.length t.token.line ++ [t.token],
        ⟨d.levels.drop closed.length, d.depth, false⟩)
    else .error .unmatchedDepth
  else .ok ([t.token], ⟨d.levels, d.depth, false⟩)

/-- The tokens that a token turns into. -/
def step (d : Indenter) (t : Tracked) : Except ReadFault (List Token × Indenter) :=
  match t.token.kind with
  | .blank =>
    if d.depth = 0 then .ok ([], ⟨d.levels, width t.token, true⟩) else .error .mixedBlanks
  | .newline =>
    .ok (if d.afterBlank || t.opening then [] else [t.token], ⟨d.levels, 0, d.afterBlank⟩)
  | _ => d.real t

/-- The dedents at the end of a text, on the line of its last token. -/
def finish (d : Indenter) (line : Nat) : List Token :=
  dedents (d.levels.length - 1) line

end Indenter

/-- The end marker, on the line of the last token if there is one. -/
def endMarker (line : Option Nat) : Token :=
  .ofLayout .endMarker (line.getD 1)

/-- Turns tracked tokens into the tokens of the layout. `seen` is the line of the last token read and
`put` that of the last token given out; each token comes with where the scanner stands when it does. -/
def layOut (mark : Bool) (fault : Option ReadFault) (last : Scanner) (d : Indenter) (seen put : Option Nat) :
    List (Tracked × Scanner) → Stream (Token × Scanner)
  | [] =>
    match fault with
    | some f => ⟨[], some f, last⟩
    | none =>
      let closing := d.finish (seen.getD 1)
      let final := if mark then [endMarker ((closing.getLast?.map Token.line).or put)] else []
      ⟨(closing ++ final).map (·, last), none, last⟩
  | (t, s) :: rest =>
    match d.step t with
    | .error f => ⟨[], some f, s⟩
    | .ok (out, d) =>
      let put := (out.getLast?.map Token.line).or put
      let more := layOut mark fault last d (some t.token.line) put rest
      ⟨out.map (·, s) ++ more.items, more.fault, more.last⟩

/-- The tokens of a text whose first line has the given number, with or without an end marker. -/
def tokenize (line : Nat) (mark : Bool) (text : List Char) : Stream (Token × Scanner) :=
  let tracked := trackText line text
  layOut mark tracked.fault tracked.last Indenter.start none none tracked.items

/-- The tokens of the layout of tokens in hand, without an end marker. -/
def layOutTokens (tokens : List Token) : Stream (Token × Scanner) :=
  let s := Scanner.start 1
  layOut false none s Indenter.start none none ((LineTracker.start.trackAll tokens).map (·, s))

end Pseudocode
