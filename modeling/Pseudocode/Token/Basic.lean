/-!
# Tokens

What the source text of a program is made of, once blanks and comments are gone and the layout of its
lines has been turned into tokens of its own.
-/

namespace Pseudocode

/-- The kinds of token. A blank is the white space that opens a line; it is seen only while the layout
is worked out. -/
inductive TokenKind where
  | name
  | string
  | number
  | truth
  | plus
  | minus
  | times
  | divide
  | comparison
  | comma
  | leftParen
  | rightParen
  | marker
  | letWord
  | beWord
  | ifWord
  | thenWord
  | elseWord
  | returnWord
  | gotoWord
  | instructionWord
  | printWord
  | newline
  | blank
  | indent
  | dedent
  | endMarker
deriving DecidableEq, Repr

/-- What a token carries: its text, or the number that it stands for, or nothing for the tokens that
stand for layout. -/
inductive Payload where
  | absent
  | text (s : String)
  | whole (n : Nat)
  | real (x : Float)
deriving DecidableEq

/-- A token, with the line it stands on and the count of characters before it. -/
structure Token where
  kind : TokenKind
  payload : Payload
  line : Nat
  pos : Nat
deriving DecidableEq

namespace Token

/-- A token of the layout, which has no characters of its own. -/
def ofLayout (kind : TokenKind) (line : Nat) : Token :=
  ⟨kind, .absent, line, 0⟩

end Token

/-- Why a source text is no program. -/
inductive ReadFault where
  /-- No token starts with this character. -/
  | unknownSymbol (c : Char)
  /-- A whole number has more digits than may be read. -/
  | longLiteral (digits : Nat)
  /-- The line after `then` or `else` is not indented. -/
  | blockExpected
  /-- A line is indented further than the block it is in. -/
  | deeperLine
  /-- A line ends its block but stands at the depth of no block around it. -/
  | unmatchedDepth
  /-- A line is indented with spaces and tabs. -/
  | mixedBlanks
  /-- The token does not continue any program. -/
  | unexpected (t : Token)
deriving DecidableEq

end Pseudocode
