import Pseudocode.Token.Message
import Pseudocode.Tree.Fault

/-!
# Trees as text

A conditional statement shows what it does line by line if that is a list, and as it is otherwise. The
text of a tree is what a program prints for it, and for statements and expressions their source,
spread over lines. A text is shown as it is, but in quotes when it stands in a list.
-/

namespace Pseudocode

/-- The least number with more digits than may be written. -/
def longNumberBound : Nat :=
  Nat.pow 10 digitLimit

/-- The text of a whole number, if it is not too long. -/
def wholeText (n : Int) : Except Fault String :=
  if n.natAbs < longNumberBound then .ok (toString n) else .error .longNumber

/-- Where a tree is shown: by itself, as an item of a list, or as what a conditional statement does. -/
inductive Place where
  | alone
  | listed
  | inside
deriving DecidableEq, Repr

/-- The margin of a statement inside another. -/
def margin : String := "      "

/-- A text at its place: what stands inside a statement is moved in. -/
def Place.wrap (place : Place) (s : String) : String :=
  if place = .inside then margin ++ s else s

/-- Statements inside another, each on a line of its own. -/
def insets (parts : List String) : String :=
  String.join (parts.map fun s => margin ++ s ++ "\n")

namespace Tree

/-- Whether a tree is a list. -/
def isList : Tree → Bool
  | list _ => true
  | _ => false

mutual

/-- The text of a tree at its place. -/
def render (place : Place) : Tree → Except Fault String
  | none => .ok (place.wrap "None")
  | bool b => .ok (place.wrap (if b then "True" else "False"))
  | int n => (wholeText n).map place.wrap
  | float x => .ok (place.wrap (fractionStyle.write x))
  | nan _ => .ok (place.wrap (fractionStyle.write (0.0 / 0.0)))
  | text s => .ok (if place = .listed then Text.quoted s else place.wrap s)
  | list items =>
    if place = .inside then (renderAll .alone items).map insets
    else (renderAll .listed items).map fun parts => "[" ++ String.intercalate ", " parts ++ "]"
  | name x => .ok (place.wrap x)
  | operation op operands => do
    let parts ← renderAll .alone operands
    return place.wrap ("(" ++ String.intercalate (" " ++ op ++ " ") parts ++ ")")
  | comparison op operands => do
    match ← renderAll .alone operands with
    | left :: right :: _ => return place.wrap (left ++ " " ++ op ++ " " ++ right)
    | _ => .error (.outOfRange .list)
  | assign target value => do
    let v ← render .alone value
    return place.wrap ("let " ++ target ++ " be " ++ v)
  | when test body => do
    let b ← render .inside body
    let t ← render .alone test
    return place.wrap ("if " ++ t ++ ", then\n" ++ b)
  | choose test body other => do
    let b ← render .inside body
    let o ← if other.isSomething then render .inside other else .ok ""
    let t ← render .alone test
    if other.isSomething && !other.isList then .error .otherNotShown
    else return place.wrap ("if " ++ t ++ ", then\n" ++ b ++ "\n" ++ o)
  | give value => do
    let v ← render .alone value
    return place.wrap ("return " ++ v)
  | print value => do
    let v ← render .alone value
    return place.wrap ("print " ++ v)
  | jump label => do
    let l ← render .alone label
    return place.wrap ("goto instruction " ++ l)
  | mark label =>
    if place = .listed then do
      let l ← render .listed label
      return "MarkerStatement(label=" ++ l ++ ")"
    else do
      let l ← render .alone label
      return place.wrap ("@" ++ l)

/-- The texts of some trees, up to the first that has none. -/
def renderAll (place : Place) : List Tree → Except Fault (List String)
  | [] => .ok []
  | t :: rest => do
    let s ← render place t
    let more ← renderAll place rest
    return s :: more

end

/-- The text of a tree by itself. -/
def show? (t : Tree) : Except Fault String :=
  t.render .alone

/-- The text of a tree as an item of a list. -/
def showListed? (t : Tree) : Except Fault String :=
  t.render .listed

end Tree

end Pseudocode
