import Pseudocode.Token.Layout
import Pseudocode.Tree.Basic

/-!
# Reading programs

A reader takes the tokens of a program one by one and builds its tree. It keeps what is begun and not
complete in frames, the innermost first, and in its mode what it waits for.

The language leaves three choices open, and the reader makes them so. A line end belongs to the
innermost statement that is complete before it. An `else` belongs to the nearest conditional statement
that has none yet. Operators of one level group from the left, `*` and `/` bind closer than `+` and `-`,
and these closer than comparisons; a minus sign in front takes in all factors behind it.
-/

namespace Pseudocode

/-- The text that a token carries. -/
def Payload.string : Payload → String
  | .text s => s
  | _ => ""

/-- What a token carries as a tree. -/
def Payload.tree : Payload → Tree
  | .absent => .none
  | .text s => .text s
  | .whole n => .int n
  | .real x => .float x

/-- How closely an operator binds: comparisons least, then sums, then products. -/
def TokenKind.level? : TokenKind → Option Nat
  | .comparison => some 1
  | .plus | .minus => some 2
  | .times | .divide => some 3
  | _ => none

/-- Something begun and not complete. -/
inductive Frame where
  /-- A minus sign waits for what it negates. -/
  | negated
  /-- A left operand and its operator wait for the right operand. -/
  | left (op : String) (level : Nat) (operand : Tree)
  /-- An opened parenthesis. -/
  | paren
  /-- An expression is read for a variable. -/
  | assigned (target : String)
  /-- An expression is read to end the program with. -/
  | given
  /-- An expression is read to be printed. -/
  | printed
  /-- A comparison is read as the test of a conditional statement. -/
  | tested
  /-- The body of a conditional statement is read. -/
  | thenPart (test : Tree)
  /-- The other part of a conditional statement is read. -/
  | elsePart (test body : Tree)
  /-- An indented block is read; its statements so far, the last first. -/
  | block (done : List Tree)
  /-- The program is read; its parts so far, the last first. -/
  | program (done : List Tree)

/-- What a reader waits for. -/
inductive ReaderMode where
  /-- A statement, or the end of what statements are read for. -/
  | statement
  /-- An operand. -/
  | operand
  /-- An operand or, as nothing has to be printed, the end of the statement. -/
  | printable
  /-- An operator, or the end of an expression. `compares` says that the operand is a comparison that
  stands in no parentheses. -/
  | operator (operand : Tree) (compares : Bool)
  /-- The variable of a `let`. -/
  | target
  /-- The `be` of a `let`. -/
  | be (target : String)
  /-- The `instruction` of a `goto`. -/
  | instruction
  /-- The label of a `goto`. -/
  | jumpLabel
  /-- The label of a mark. -/
  | markLabel
  /-- The `then` of a conditional statement. -/
  | thenWord (test : Tree)
  /-- A statement on the same line, or the end of the line before a block. -/
  | body
  /-- The indent of a block. -/
  | indent
  /-- The end of a line, or whatever follows a complete statement. -/
  | ended (s : Tree)
  /-- An `else`, or whatever follows a conditional statement without one. -/
  | bodied (test body : Tree)
  /-- Nothing: the program is complete. -/
  | accepted

/-- A reader. -/
structure Reader where
  mode : ReaderMode
  frames : List Frame

namespace Reader

/-- A reader that was given nothing yet. -/
def start : Reader :=
  ⟨.statement, [.program []]⟩

/-- The tree of a minus sign in front of an operand. -/
def negate (t : Tree) : Tree :=
  .operation "*" [.int (-1), t]

/-- The tree of an operator of some level between two operands. -/
def combine (op : String) (level : Nat) (a b : Tree) : Tree :=
  if level = 1 then .comparison op [a, b] else .operation op [a, b]

/-- Completes the operators in wait that bind at least as closely as a level. -/
def settle (level : Nat) (t : Tree) (compares : Bool) : List Frame → Tree × Bool × List Frame
  | .negated :: rest =>
    if level ≤ 2 then settle level (negate t) false rest else (t, compares, .negated :: rest)
  | .left op l a :: rest =>
    if level ≤ l then settle level (combine op l a t) (l == 1) rest
    else (t, compares, .left op l a :: rest)
  | frames => (t, compares, frames)

/-- Begins an operand. -/
def operand (t : Token) (frames : List Frame) : Option Reader :=
  match t.kind with
  | .name => some ⟨.operator (.name t.payload.string) false, frames⟩
  | .number => some ⟨.operator t.payload.tree false, frames⟩
  | .string => some ⟨.operator t.payload.tree false, frames⟩
  | .truth => some ⟨.operator (.bool (t.payload.string == "True")) false, frames⟩
  | .minus => some ⟨.operand, .negated :: frames⟩
  | .leftParen => some ⟨.operand, .paren :: frames⟩
  | _ => none

/-- Begins a statement. -/
def begin (t : Token) (frames : List Frame) : Option Reader :=
  match t.kind with
  | .letWord => some ⟨.target, frames⟩
  | .ifWord => some ⟨.operand, .tested :: frames⟩
  | .returnWord => some ⟨.operand, .given :: frames⟩
  | .printWord => some ⟨.printable, frames⟩
  | .gotoWord => some ⟨.instruction, frames⟩
  | .marker => some ⟨.markLabel, frames⟩
  | _ => none

/-- The statements of a block as one tree: a single one stands for itself. -/
def blockTree : List Tree → Tree
  | [s] => s
  | done => .list done.reverse

/-- Puts a complete statement, with the end of its line or without, to what it was read for. -/
def place (s : Tree) : List Frame → Option Reader
  | .thenPart test :: rest => some ⟨.bodied test s, rest⟩
  | .elsePart test body :: rest => some ⟨.ended (.choose test body s), rest⟩
  | .block done :: rest => some ⟨.statement, .block (s :: done) :: rest⟩
  | .program done :: rest => some ⟨.statement, .program (s :: done) :: rest⟩
  | _ => none

/-- Takes a token where a statement can begin. A program and a block end only after a first statement,
and a program may be an expression instead of it. -/
def atStatement (t : Token) : List Frame → Option Reader
  | .program [] :: rest => (begin t (.program [] :: rest)).or (operand t (.program [] :: rest))
  | .program (d :: done) :: rest =>
    match t.kind with
    | .newline => some ⟨.statement, .program (t.payload.tree :: d :: done) :: rest⟩
    | .endMarker => some ⟨.accepted, .program (d :: done) :: rest⟩
    | _ => begin t (.program (d :: done) :: rest)
  | .block [] :: rest => begin t (.block [] :: rest)
  | .block (d :: done) :: rest =>
    if t.kind = .dedent then place (blockTree (d :: done)) rest
    else begin t (.block (d :: done) :: rest)
  | _ => none

/-- Takes a token other than a line end behind a complete statement. -/
def unwind (t : Token) (s : Tree) : List Frame → Option Reader
  | .thenPart test :: rest =>
    if t.kind = .elseWord then some ⟨.body, .elsePart test s :: rest⟩
    else unwind t (.when test s) rest
  | .elsePart test body :: rest => unwind t (.choose test body s) rest
  | .block done :: rest => atStatement t (.block (s :: done) :: rest)
  | .program done :: rest => atStatement t (.program (s :: done) :: rest)
  | _ => none

/-- Takes a token behind a complete statement. -/
def complete (t : Token) (s : Tree) (frames : List Frame) : Option Reader :=
  if t.kind = .newline then place s frames else unwind t s frames

/-- Takes a token other than an operator behind a complete expression. -/
def conclude (t : Token) (e : Tree) (compares : Bool) : List Frame → Option Reader
  | .paren :: rest => if t.kind = .rightParen then some ⟨.operator e false, rest⟩ else none
  | .tested :: rest => if t.kind = .comma ∧ compares then some ⟨.thenWord e, rest⟩ else none
  | .assigned target :: rest => complete t (.assign target e) rest
  | .given :: rest => complete t (.give e) rest
  | .printed :: rest => complete t (.print e) rest
  | .program [] :: rest => atStatement t (.program [e] :: rest)
  | _ => none

/-- Takes a token behind a complete operand. -/
def operator (t : Token) (e : Tree) (compares : Bool) (frames : List Frame) : Option Reader :=
  match t.kind.level? with
  | some level =>
    let (e, _, frames) := settle level e compares frames
    some ⟨.operand, .left t.payload.string level e :: frames⟩
  | none =>
    let (e, compares, frames) := settle 0 e compares frames
    conclude t e compares frames

/-- The reader moves on to a mode if a token is of the kind it waits for. -/
def expect (t : Token) (kind : TokenKind) (mode : ReaderMode) (frames : List Frame) : Option Reader :=
  if t.kind = kind then some ⟨mode, frames⟩ else none

/-- The reader behind one more token, if the token continues a program. -/
def feed (r : Reader) (t : Token) : Option Reader :=
  match r.mode with
  | .statement => atStatement t r.frames
  | .operand => operand t r.frames
  | .printable => (operand t (.printed :: r.frames)).or (complete t (.print .none) r.frames)
  | .operator e compares => operator t e compares r.frames
  | .target => expect t .name (.be t.payload.string) r.frames
  | .be target => expect t .beWord .operand (.assigned target :: r.frames)
  | .instruction => expect t .instructionWord .jumpLabel r.frames
  | .jumpLabel => expect t .number (.ended (.jump t.payload.tree)) r.frames
  | .markLabel => expect t .number (.ended (.mark t.payload.tree)) r.frames
  | .thenWord test => expect t .thenWord .body (.thenPart test :: r.frames)
  | .body => if t.kind = .newline then some ⟨.indent, r.frames⟩ else begin t r.frames
  | .indent => expect t .indent .statement (.block [] :: r.frames)
  | .ended s => complete t s r.frames
  | .bodied test body =>
    if t.kind = .elseWord then some ⟨.body, .elsePart test body :: r.frames⟩
    else complete t (.when test body) r.frames
  | .accepted => none

/-- The program that a reader has read completely. -/
def program? (r : Reader) : Option (List Tree) :=
  match r.mode, r.frames with
  | .accepted, [.program done] => some done.reverse
  | _, _ => none

/-- The reader behind some tokens, up to the first that continues no program. -/
def feedAll (r : Reader) : List Token → Except ReadFault Reader
  | [] => .ok r
  | t :: rest =>
    match r.feed t with
    | none => .error (.unexpected t)
    | some r => r.feedAll rest

/-- The program that tokens make up; `line` is that of the end marker missed if they stop too soon. -/
def programOf (tokens : List Token) : Except ReadFault (List Tree) := do
  let r ← start.feedAll tokens
  match r.program? with
  | some program => return program
  | none => .error (.unexpected (endMarker none))

end Reader

/-- The program of a source text. A token that continues no program counts before a fault in the text
behind it. -/
def readProgram (source : String) : Except ReadFault (List Tree) :=
  let stream := tokenize 1 true source.toList
  let tokens := stream.items.map Prod.fst
  match stream.fault with
  | none => Reader.programOf tokens
  | some fault => do
    let _ ← Reader.start.feedAll tokens
    .error fault

end Pseudocode
