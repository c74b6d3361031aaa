import Pseudocode.Run.Store
import Pseudocode.Tree.Order

/-!
# The values of expressions

Operands are worked out from left to right. The operands of an operation are of one kind, or whole
numbers and fractions together. Texts keep their quotes when they are joined: the closing quote of the
left one and the opening quote of the right one go.
-/

namespace Pseudocode

namespace Num

/-- A number as a fraction. -/
def toFloat : Num → Except Fault Float
  | .int n => match Number.ofInt? n with
    | some x => .ok x
    | none => .error .wholeTooLarge
  | .float x => .ok x

/-- The sum, difference or product of two numbers, whole if both are. -/
def combine (onInt : Int → Int → Int) (onFloat : Float → Float → Float) : Num → Num → Except Fault Tree
  | .int m, .int n => .ok (.int (onInt m n))
  | a, b => do
    let x ← a.toFloat
    let y ← b.toFloat
    return .float (onFloat x y)

/-- The quotient of two numbers, always a fraction. -/
def divide : Num → Num → Except Fault Tree
  | .int m, .int n => match Number.ofQuotient? m n with
    | some x => .ok (.float x)
    | none => .error .quotientTooLarge
  | a, b => do
    let x ← a.toFloat
    let y ← b.toFloat
    return .float (x / y)

end Num

/-- Two texts in quotes as one text in quotes. -/
def joinQuoted (s t : String) : String :=
  String.ofList (s.toList.dropLast ++ t.toList.drop 1)

namespace Tree

/-- The sum of two trees; texts and lists are joined. -/
def add (a b : Tree) : Except Fault Tree :=
  match a, b with
  | text s, text t => .ok (text (joinQuoted s t))
  | list xs, list ys => .ok (list (xs ++ ys))
  | _, _ =>
    match a.num?, b.num? with
    | some m, some n => m.combine (· + ·) (· + ·) n
    | _, _ => .error (.unsupported "+" a.kind b.kind)

/-- The difference of two trees. -/
def subtract (a b : Tree) : Except Fault Tree :=
  match a.num?, b.num? with
  | some m, some n => m.combine (· - ·) (· - ·) n
  | _, _ => .error (.unsupported "-" a.kind b.kind)

/-- The product of two trees. -/
def multiply (a b : Tree) : Except Fault Tree :=
  match a.num?, b.num? with
  | some m, some n => m.combine (· * ·) (· * ·) n
  | _, _ =>
    if a.kind = .text ∨ a.kind = .list then .error (.repetition b.kind)
    else .error (.unsupported "*" a.kind b.kind)

/-- The quotient of two trees. -/
def divide (a b : Tree) : Except Fault Tree :=
  if same b (int 0) then .error .divisionByZero
  else match a.num?, b.num? with
    | some m, some n => m.divide n
    | _, _ => .error (.unsupported "/" a.kind b.kind)

/-- Whether trees may stand together in an operation: they are of one kind, or whole numbers and
fractions. -/
def alike (vs : List Tree) : Bool :=
  match vs with
  | [] => true
  | v :: rest =>
    rest.all (·.kind = v.kind) || vs.all fun w => w.kind = .int || w.kind = .float

/-- The value of an operation on values. -/
def operate (op : String) (vs : List Tree) : Except Fault Tree :=
  if !alike vs then .error .mixedOperands
  else if isBinary op then
    match vs with
    | a :: b :: _ =>
      if op == "+" then a.add b
      else if op == "-" then a.subtract b
      else if op == "*" then a.multiply b
      else a.divide b
    | _ => .error (.outOfRange .list)
  else .error (.unknownOperator op)

/-- Whether truth values and whole numbers stand together. -/
def truthWithWhole (vs : List Tree) : Bool :=
  vs.any (·.kind = .bool) && vs.any (·.kind = .int)

/-- Whether a comparison holds between two values. -/
def compares (op : String) (a b : Tree) : Except Fault Bool :=
  if op == "==" then .ok (same a b)
  else if op == "!=" then .ok (!same a b)
  else if isComparing op then ordered op a b
  else .error (.unknownComparison op)

/-- Whether a comparison holds of values. No comparison of a truth value with a whole number holds. -/
def compareAll (op : String) (vs : List Tree) : Except Fault Bool :=
  match vs with
  | a :: b :: _ => if truthWithWhole vs then .ok false else compares op a b
  | _ => .error (.outOfRange .list)

mutual

/-- The value of an expression. -/
def eval (σ : Store) : Tree → Except Fault Tree
  | bool b => .ok (bool b)
  | int n => .ok (int n)
  | float x => .ok (float x)
  | nan i => .ok (nan i)
  | text s => .ok (text s)
  | name x =>
    match σ.get? x with
    | some v => .ok v
    | Option.none => .error (.undefined x)
  | operation op operands => do
    let vs ← evalAll σ operands
    operate op vs
  | comparison op operands => do
    let vs ← evalAll σ operands
    return bool (← compareAll op vs)
  | t => .error (.notExpression t.kind)

/-- The values of expressions, up to the first that has none. -/
def evalAll (σ : Store) : List Tree → Except Fault (List Tree)
  | [] => .ok []
  | t :: rest => do
    let v ← eval σ t
    let vs ← evalAll σ rest
    return v :: vs

end

/-- Whether a test holds. Only trees with operands can be tested. -/
def test (σ : Store) : Tree → Except Fault Bool
  | comparison op operands => do compareAll op (← evalAll σ operands)
  | operation op operands => do compareAll op (← evalAll σ operands)
  | t => .error (.noField t.kind "operands")

end Tree

end Pseudocode
