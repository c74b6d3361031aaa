/-!
# Program trees

Programs and the values they compute are trees of one kind: a list of statements can hold a bare
number, and a variable can hold whatever a tree is. `Tree` has the values first, then expressions, then
statements.

A value that is not a number is not equal to itself, and yet a list that holds it is equal to itself. So
the ones that variables start with can be told apart: `Tree.tellApart` gives each of them a number.
-/

namespace Pseudocode

/-- A value, an expression or a statement. -/
inductive Tree where
  | none
  | bool (b : Bool)
  | int (n : Int)
  | float (x : Float)
  /-- A given value that is not a number, and which of them it is. A computed one is a `float`. -/
  | nan (which : Nat)
  /-- A text. That of a string literal keeps its quotes. -/
  | text (s : String)
  | list (items : List Tree)
  /-- The name of a variable. -/
  | name (x : String)
  | operation (op : String) (operands : List Tree)
  | comparison (op : String) (operands : List Tree)
  /-- Gives a variable the value of an expression. -/
  | assign (target : String) (value : Tree)
  /-- Does its body if the test holds. -/
  | when (test body : Tree)
  /-- Does its body if the test holds, and the other part if not. -/
  | choose (test body other : Tree)
  /-- Ends the program with a value. -/
  | give (value : Tree)
  /-- Prints a value, or an empty line if there is none. -/
  | print (value : Tree)
  /-- Goes on behind the mark with this label. -/
  | jump (label : Tree)
  | mark (label : Tree)
deriving Inhabited

/-- What a tree is at its root. -/
inductive Kind where
  | none
  | bool
  | int
  | float
  | text
  | list
  | name
  | operation
  | comparison
  | assign
  | when
  | choose
  | give
  | print
  | jump
  | mark
deriving DecidableEq, Repr

namespace Kind

/-- The word for a kind in messages. -/
def word : Kind → String
  | none => "NoneType"
  | bool => "bool"
  | int => "int"
  | float => "float"
  | text => "str"
  | list => "list"
  | name => "Mneumonic"
  | operation => "Operation"
  | comparison => "Comparison"
  | assign => "LetStatement"
  | when => "IfStatement"
  | choose => "IfElseStatement"
  | give => "ReturnStatement"
  | print => "PrintStatement"
  | jump => "GotoStatement"
  | mark => "MarkerStatement"

/-- Whether trees of a kind are plain values, and not expressions or statements to be worked out. -/
def isPlain : Kind → Bool
  | none | bool | int | float | text | list => true
  | _ => false

/-- The word for a kind where the family that it belongs to is named too. -/
def fullWord (k : Kind) : String :=
  if k.isPlain then k.word else "BanterADT." ++ k.word

end Kind

namespace Tree

/-- What a tree is at its root. -/
def kind : Tree → Kind
  | none => .none
  | bool _ => .bool
  | int _ => .int
  | float _ => .float
  | nan _ => .float
  | text _ => .text
  | list _ => .list
  | name _ => .name
  | operation _ _ => .operation
  | comparison _ _ => .comparison
  | assign _ _ => .assign
  | when _ _ => .when
  | choose _ _ _ => .choose
  | give _ => .give
  | print _ => .print
  | jump _ => .jump
  | mark _ => .mark

/-- Whether a tree counts as something: nothing, false, the zeros and what is empty do not. -/
def isSomething : Tree → Bool
  | none => false
  | bool b => b
  | int n => n != 0
  | float x => x != 0.0
  | text s => !s.isEmpty
  | list items => !items.isEmpty
  | _ => true

mutual

/-- The count of nodes and leaves of a tree. -/
def size : Tree → Nat
  | list items => 1 + sizeAll items
  | operation _ operands => 1 + sizeAll operands
  | comparison _ operands => 1 + sizeAll operands
  | assign _ value => 1 + size value
  | when test body => 1 + size test + size body
  | choose test body other => 1 + size test + size body + size other
  | give value => 1 + size value
  | print value => 1 + size value
  | jump label => 1 + size label
  | mark label => 1 + size label
  | _ => 1

/-- The count of nodes and leaves of some trees. -/
def sizeAll : List Tree → Nat
  | [] => 0
  | t :: rest => size t + sizeAll rest

end

mutual

/-- A tree whose values that are not numbers are numbered, from left to right and from `n` on, and the
next number. -/
def tellApart (n : Nat) : Tree → Tree × Nat
  | float x => if x.isNaN then (nan n, n + 1) else (float x, n)
  | list items =>
    let (items, n) := tellAllApart n items
    (list items, n)
  | operation op operands =>
    let (operands, n) := tellAllApart n operands
    (operation op operands, n)
  | comparison op operands =>
    let (operands, n) := tellAllApart n operands
    (comparison op operands, n)
  | assign target value =>
    let (value, n) := tellApart n value
    (assign target value, n)
  | when test body =>
    let (test, n) := tellApart n test
    let (body, n) := tellApart n body
    (when test body, n)
  | choose test body other =>
    let (test, n) := tellApart n test
    let (body, n) := tellApart n body
    let (other, n) := tellApart n other
    (choose test body other, n)
  | give value =>
    let (value, n) := tellApart n value
    (give value, n)
  | print value =>
    let (value, n) := tellApart n value
    (print value, n)
  | jump label =>
    let (label, n) := tellApart n label
    (jump label, n)
  | mark label =>
    let (label, n) := tellApart n label
    (mark label, n)
  | t => (t, n)

/-- Trees whose values that are not numbers are numbered, and the next number. -/
def tellAllApart (n : Nat) : List Tree → List Tree × Nat
  | [] => ([], n)
  | t :: rest =>
    let (t, n) := tellApart n t
    let (rest, n) := tellAllApart n rest
    (t :: rest, n)

end

/-- The operators that take two operands. -/
def isBinary (op : String) : Bool :=
  op == "+" || op == "-" || op == "*" || op == "/"

/-- The operator that takes one operand. -/
def isUnary (op : String) : Bool :=
  op == "neg"

/-- The operators that compare. -/
def isComparing (op : String) : Bool :=
  op == "==" || op == "!=" || op == ">" || op == "<" || op == ">=" || op == "<="

end Tree

end Pseudocode
