import Pseudocode.Tree.Order

/-!
# Paths

A path leads from a tree to a part of it, by the places of lists and the fields of nodes. Marks are
looked for in document order: the items of lists from left to right, the body of a conditional statement
before its other part.
-/

namespace Pseudocode

/-- One step of a path. -/
inductive PathStep where
  /-- An item of a list; negative places count from the end. -/
  | index (i : Int)
  | field (name : String)
deriving DecidableEq, Repr

/-- A way from a tree to a part of it. -/
abbrev Path := List PathStep

namespace Tree

mutual

/-- The path to the first mark with a label. -/
def findMark (label : Tree) : Tree → Option Path
  | list items => findMarkFrom label 0 items
  | mark l => if same l label then some [] else Option.none
  | when _ body => (findMark label body).map (.field "do" :: ·)
  | choose _ body other =>
    ((findMark label body).map (.field "do" :: ·)).or
      ((findMark label other).map (.field "alternate" :: ·))
  | _ => Option.none

/-- The path to the first mark with a label in the items of a list from place `i` on. -/
def findMarkFrom (label : Tree) (i : Nat) : List Tree → Option Path
  | [] => Option.none
  | t :: rest =>
    ((findMark label t).map (.index i :: ·)).or (findMarkFrom label (i + 1) rest)

end

/-- A field of a whole number: it is its own real part and numerator. -/
def wholeField? (f : String) (n : Int) : Option Tree :=
  if f == "real" || f == "numerator" then some (int n)
  else if f == "imag" then some (int 0)
  else if f == "denominator" then some (int 1)
  else Option.none

/-- A field of a fraction: it is its own real part. -/
def fractionField? (f : String) (whole : Tree) : Option Tree :=
  if f == "real" then some whole else if f == "imag" then some (float 0.0) else Option.none

/-- A field of a node or a number. -/
def field? (f : String) : Tree → Option Tree
  | bool b => wholeField? f (if b then 1 else 0)
  | int n => wholeField? f n
  | float x => fractionField? f (float x)
  | nan i => fractionField? f (nan i)
  | name x =>
    if f == "name" then some (text x) else if f == "value" then some none else Option.none
  | operation op operands =>
    if f == "operator" then some (text op) else if f == "operands" then some (list operands) else Option.none
  | comparison op operands =>
    if f == "operator" then some (text op) else if f == "operands" then some (list operands) else Option.none
  | assign target value =>
    if f == "mneumonic" then some (text target) else if f == "value" then some value else Option.none
  | when test body =>
    if f == "expr" then some test else if f == "do" then some body else Option.none
  | choose test body other =>
    if f == "expr" then some test else if f == "do" then some body
    else if f == "alternate" then some other else Option.none
  | give value => if f == "value" then some value else Option.none
  | print value => if f == "value" then some value else Option.none
  | jump label => if f == "label" then some label else Option.none
  | mark label => if f == "label" then some label else Option.none
  | _ => Option.none

/-- Whether a place fits into a word of 64 bits with a sign. -/
def isPlace (i : Int) : Bool :=
  -0x8000000000000000 ≤ i && i < 0x8000000000000000

/-- The place from the front that a place of a sequence of `n` items is. -/
def place? (n : Nat) (i : Int) : Option Nat :=
  let j := if i < 0 then i + n else i
  if 0 ≤ j ∧ j < n then some j.toNat else Option.none

/-- An item of a list, or a character of a text. -/
def item (i : Int) : Tree → Except Fault Tree
  | list items =>
    match (place? items.length i).bind (items[·]?) with
    | some t => .ok t
    | Option.none => .error (if isPlace i then .outOfRange .list else .placeTooLarge)
  | text s =>
    match (place? s.length i).bind (s.toList[·]?) with
    | some c => .ok (text (String.singleton c))
    | Option.none => .error (if isPlace i then .outOfRange .text else .placeTooLarge)
  | t => .error (.noItems t.kind)

/-- The part of a tree that one step leads to. -/
def follow (t : Tree) : PathStep → Except Fault Tree
  | .index i => t.item i
  | .field f =>
    match t.field? f with
    | some part => .ok part
    | Option.none => .error (.noField t.kind f)

/-- The part of a tree at the end of a path. -/
def at? (t : Tree) : Path → Except Fault Tree
  | [] => .ok t
  | step :: rest => do
    let part ← t.follow step
    part.at? rest

end Tree

end Pseudocode
