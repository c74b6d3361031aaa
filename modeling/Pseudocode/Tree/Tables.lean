import Pseudocode.Tree.Grammar
import Pseudocode.Tree.Reader

/-!
# Parsing by tables

The tables say what a parser with a stack does. It is in one of 59 states. A token is shifted, which puts
it on the stack, or the values on top of the stack are reduced by a rule of the grammar to the value of the
part that the rule makes. The stack holds these values and the states that were reached with them.
-/

namespace Pseudocode.Tables

open Grammar

/-- What a parser does in a state with a token ahead. -/
inductive Action where
  | shift (state : Nat)
  | reduce (r : Rule)
  | accept
deriving DecidableEq

/-- The actions of a state by the kind of the token ahead, or by nothing at the end of the tokens. -/
abbrev Row := List (Option TokenKind × Action)

/-! ## Actions -/

/-- Entries that shift tokens. -/
def shifts (entries : List (TokenKind × Nat)) : Row :=
  entries.map fun (kind, state) => (some kind, .shift state)

/-- Entries that reduce by a rule. -/
def reduces (r : Rule) (kinds : List TokenKind) : Row :=
  kinds.map (some ·, .reduce r)

/-- The tokens that begin an operand. -/
def operands : Row :=
  shifts [(.minus, 6), (.number, 7), (.string, 8), (.name, 9), (.truth, 10), (.leftParen, 11)]

/-- The tokens that begin a statement. -/
def statements : Row :=
  shifts [(.letWord, 14), (.ifWord, 15), (.returnWord, 16), (.printWord, 17), (.gotoWord, 18), (.marker, 19)]

/-- The operators of products. -/
def factors : Row :=
  shifts [(.times, 25), (.divide, 26)]

/-- The operators of sums and products. -/
def terms : Row :=
  shifts [(.plus, 23), (.minus, 24)] ++ factors

/-- All operators. -/
def operators : Row :=
  shifts [(.comparison, 27)] ++ terms

/-- The kinds that begin a statement. -/
def openers : List TokenKind :=
  [.letWord, .ifWord, .returnWord, .printWord, .gotoWord, .marker]

/-- The kinds that may follow a part of the program. -/
def afterCommand : List TokenKind :=
  openers ++ [.endMarker, .newline]

/-- The kinds that may follow a statement of a block. -/
def inBlock : List TokenKind :=
  openers ++ [.dedent]

/-- The kinds that may follow a statement. -/
def afterStatement : List TokenKind :=
  afterCommand ++ [.elseWord, .dedent]

/-- The kinds that may follow a comparison, whose operators bind closer. -/
def afterComparison : List TokenKind :=
  afterStatement ++ [.comparison, .rightParen, .comma]

/-- The kinds that may follow a sum. -/
def afterSum : List TokenKind :=
  afterComparison ++ [.plus, .minus]

/-- The kinds that may follow an expression. -/
def afterExpression : List TokenKind :=
  afterSum ++ [.times, .divide]

/-- The rows of all states, in order. -/
def rows : List Row :=
  [ /- 0 -/ operands ++ statements,
    /- 1 -/ [(none, .accept)],
    /- 2 -/ statements ++ shifts [(.endMarker, 20), (.newline, 21)],
    /- 3 -/ reduces .programFirst afterCommand,
    /- 4 -/ operators ++ reduces .programExpression afterCommand,
    /- 5 -/ reduces .command afterCommand,
    /- 6 -/ operands,
    /- 7 -/ reduces .number afterExpression,
    /- 8 -/ reduces .string afterExpression,
    /- 9 -/ reduces .name afterExpression,
    /- 10 -/ reduces .truth afterExpression,
    /- 11 -/ operands,
    /- 12 -/ reduces .compared afterExpression,
    /- 13 -/ shifts [(.newline, 30)] ++ reduces .stmtBare (openers ++ [.endMarker, .elseWord, .dedent]),
    /- 14 -/ shifts [(.name, 31)],
    /- 15 -/ operands,
    /- 16 -/ operands,
    /- 17 -/ operands ++ reduces .printEmpty afterStatement,
    /- 18 -/ shifts [(.instructionWord, 36)],
    /- 19 -/ shifts [(.number, 37)],
    /- 20 -/ [(none, .reduce .input)],
    /- 21 -/ reduces .programNewline afterCommand,
    /- 22 -/ reduces .programCommand afterCommand,
    /- 23 -/ operands,
    /- 24 -/ operands,
    /- 25 -/ operands,
    /- 26 -/ operands,
    /- 27 -/ operands,
    /- 28 -/ factors ++ reduces .negation afterSum,
    /- 29 -/ operators ++ shifts [(.rightParen, 43)],
    /- 30 -/ reduces .stmtNewline afterStatement,
    /- 31 -/ shifts [(.beWord, 44)],
    /- 32 -/ shifts [(.comma, 45)] ++ reduces .compared [.minus, .plus, .times, .divide, .comparison],
    /- 33 -/ operators,
    /- 34 -/ operators ++ reduces .give afterStatement,
    /- 35 -/ operators ++ reduces .print afterStatement,
    /- 36 -/ shifts [(.number, 46)],
    /- 37 -/ reduces .mark afterStatement,
    /- 38 -/ factors ++ reduces .sum afterSum,
    /- 39 -/ factors ++ reduces .difference afterSum,
    /- 40 -/ reduces .product afterExpression,
    /- 41 -/ reduces .quotient afterExpression,
    /- 42 -/ terms ++ reduces .comparison afterComparison,
    /- 43 -/ reduces .group afterExpression,
    /- 44 -/ operands,
    /- 45 -/ shifts [(.thenWord, 48)],
    /- 46 -/ reduces .jump afterStatement,
    /- 47 -/ operators ++ reduces .assign afterStatement,
    /- 48 -/ statements ++ shifts [(.newline, 50)],
    /- 49 -/ shifts [(.elseWord, 52)] ++ reduces .when (afterCommand ++ [.dedent]),
    /- 50 -/ shifts [(.indent, 53)],
    /- 51 -/ reduces .blockInline afterStatement,
    /- 52 -/ statements ++ shifts [(.newline, 50)],
    /- 53 -/ statements,
    /- 54 -/ reduces .choose afterStatement,
    /- 55 -/ statements ++ shifts [(.dedent, 57)],
    /- 56 -/ reduces .stmtsOne inBlock,
    /- 57 -/ reduces .blockIndented afterStatement,
    /- 58 -/ reduces .stmtsMore inBlock]

/-- The action of a state. A state whose only entry reduces does so without a look at the token ahead. -/
def action? (state : Nat) (ahead : Option TokenKind) : Option Action :=
  match rows.getD state [] with
  | [(_, .reduce r)] => some (.reduce r)
  | row => row.lookup ahead

/-! ## Parts -/

/-- The states that are reached with a part, by the states that were left for it. -/
def goto : Part → List (Nat × Nat)
  | .input => [(0, 1)]
  | .program => [(0, 2)]
  | .command => [(0, 3), (2, 22)]
  | .stmt => [(0, 5), (2, 5), (48, 51), (52, 51), (53, 56), (55, 58)]
  | .stmts => [(53, 55)]
  | .block => [(48, 49), (52, 54)]
  | .statement => [(0, 13), (2, 13), (48, 13), (52, 13), (53, 13), (55, 13)]
  | .expression =>
    [(0, 4), (6, 28), (11, 29), (15, 33), (16, 34), (17, 35), (23, 38), (24, 39), (25, 40), (26, 41), (27, 42),
     (44, 47)]
  | .comparison =>
    [(0, 12), (6, 12), (11, 12), (15, 32), (16, 12), (17, 12), (23, 12), (24, 12), (25, 12), (26, 12), (27, 12),
     (44, 12)]

/-! ## Parsing -/

/-- What is on the stack, the top first: states, each with the value that it was reached with. -/
abbrev Stack := List (Nat × Tree)

/-- The state at the top of a stack; an empty one is in state 0. -/
def top (stack : Stack) : Nat :=
  (stack.head?.map Prod.fst).getD 0

/-- Takes the values that a rule needs off a stack and puts what it builds of them there. -/
def fold (r : Rule) (stack : Stack) : Option Stack :=
  let rest := stack.drop r.size
  let values := (stack.take r.size).reverse.map Prod.snd
  ((goto r.left).lookup (top rest)).map fun state => (state, r.build values) :: rest

/-- What comes of one step: the stack and the tokens after it, or the end. -/
inductive Move where
  | on (stack : Stack) (tokens : List Token)
  | halt (result : Except ReadFault Tree)

/-- Stops at the token ahead, or at the end marker that is missed. -/
def refuse (tokens : List Token) : Move :=
  .halt (.error (.unexpected (tokens.headD (endMarker none))))

/-- One step of a parser. -/
def step (stack : Stack) (tokens : List Token) : Move :=
  match action? (top stack) (tokens.head?.map Token.kind) with
  | some (.shift state) =>
    match tokens with
    | t :: rest => .on ((state, t.payload.tree) :: stack) rest
    | [] => refuse []
  | some (.reduce r) =>
    match fold r stack with
    | some stack => .on stack tokens
    | none => refuse tokens
  | some .accept => .halt (.ok ((stack.head?.map Prod.snd).getD .none))
  | none => refuse tokens

/-- Parses for at most `fuel` steps. -/
def run : Nat → Stack → List Token → Option (Except ReadFault Tree)
  | 0, _, _ => none
  | fuel + 1, stack, tokens =>
    match step stack tokens with
    | .on stack tokens => run fuel stack tokens
    | .halt result => some result

end Pseudocode.Tables
