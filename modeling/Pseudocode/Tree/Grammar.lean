import Pseudocode.Tree.Basic

/-!
# The rules of the grammar

The language is given by 32 rules. `Rule.left` says which part of a program a rule makes and `Rule.size`
of how many tokens and parts, and `Rule.build` which tree it makes of the values of these.
-/

namespace Pseudocode.Grammar

/-- What the grammar has names for. -/
inductive Part where
  | input
  | program
  | command
  | stmt
  | stmts
  | block
  | statement
  | expression
  | comparison
deriving DecidableEq

/-- The rules, named for what they make. -/
inductive Rule where
  | input
  | programNewline
  | programCommand
  | programFirst
  | programExpression
  | command
  | stmtNewline
  | stmtBare
  | stmtsMore
  | stmtsOne
  | blockIndented
  | blockInline
  | assign
  | when
  | choose
  | give
  | print
  | printEmpty
  | jump
  | mark
  | sum
  | difference
  | product
  | quotient
  | negation
  | number
  | string
  | name
  | truth
  | group
  | compared
  | comparison
deriving DecidableEq

namespace Rule

/-- The part that a rule makes. -/
def left : Rule → Part
  | input => .input
  | programNewline | programCommand | programFirst | programExpression => .program
  | command => .command
  | stmtNewline | stmtBare => .stmt
  | stmtsMore | stmtsOne => .stmts
  | blockIndented | blockInline => .block
  | assign | when | choose | give | print | printEmpty | jump | mark => .statement
  | sum | difference | product | quotient | negation => .expression
  | number | string | name | truth | group | compared => .expression
  | comparison => .comparison

/-- How many tokens and parts a rule makes its part of. -/
def size : Rule → Nat
  | programFirst | programExpression | command | stmtBare | stmtsOne | blockInline | printEmpty => 1
  | number | string | name | truth | compared => 1
  | input | programNewline | programCommand | stmtNewline | stmtsMore | give | print | mark | negation => 2
  | jump | sum | difference | product | quotient | group | comparison => 3
  | blockIndented | assign => 4
  | when => 5
  | choose => 7

end Rule

/-- The text that a value is. -/
def textOf : Tree → String
  | .text s => s
  | _ => ""

/-- One more item behind a list; what is no list counts as its own only item. -/
def extend : Tree → Tree → Tree
  | .list items, t => .list (items ++ [t])
  | s, t => .list [s, t]

/-- A list as it is, and anything else as the only item of one. -/
def listOf : Tree → Tree
  | .list items => .list items
  | t => .list [t]

/-- The tree that a rule builds of the values of its right side, those of tokens included. -/
def Rule.build : Rule → List Tree → Tree
  | input, [p, _] => p
  | programNewline, [p, n] => extend p n
  | programCommand, [p, c] => extend p c
  | programFirst, [c] => listOf c
  | programExpression, [e] => listOf e
  | command, [s] => s
  | stmtNewline, [s, _] => s
  | stmtBare, [s] => s
  | stmtsMore, [ss, s] => extend ss s
  | stmtsOne, [s] => s
  | blockIndented, [_, _, ss, _] => ss
  | blockInline, [s] => s
  | assign, [_, x, _, e] => .assign (textOf x) e
  | when, [_, c, _, _, b] => .when c b
  | choose, [_, c, _, _, b, _, o] => .choose c b o
  | give, [_, e] => .give e
  | print, [_, e] => .print e
  | printEmpty, [_] => .print .none
  | jump, [_, _, l] => .jump l
  | mark, [_, l] => .mark l
  | sum, [a, op, b] => .operation (textOf op) [a, b]
  | difference, [a, op, b] => .operation (textOf op) [a, b]
  | product, [a, op, b] => .operation (textOf op) [a, b]
  | quotient, [a, op, b] => .operation (textOf op) [a, b]
  | negation, [_, e] => .operation "*" [.int (-1), e]
  | number, [n] => n
  | string, [s] => s
  | name, [x] => .name (textOf x)
  | truth, [b] => .bool (textOf b == "True")
  | group, [_, e, _] => e
  | compared, [c] => c
  | comparison, [a, op, b] => .comparison (textOf op) [a, b]
  | _, _ => .none

end Pseudocode.Grammar
