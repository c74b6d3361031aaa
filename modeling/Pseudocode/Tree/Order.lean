import Pseudocode.Number.Binary
import Pseudocode.Tree.Fault

/-!
# Equality and order of trees

Numbers are equal when they are the same number, whether written as whole numbers, fractions or truth
values; other trees are equal when they are of one kind with equal parts. Numbers, texts and lists are
ordered.

What is not a number is equal to nothing when it is compared by itself (`same_nan`). As a part of a list
or node it is equal to itself and to nothing else (`samePart_nan`).
-/

namespace Pseudocode

/-- A whole number or a fraction. -/
inductive Num where
  | int (n : Int)
  | float (x : Float)
deriving DecidableEq

/-- How one number stands to another, exactly; nothing stands to what is not a number. -/
def Num.compare : Num → Num → Option Ordering
  | .int m, .int n => some (Ord.compare m n)
  | .int m, .float y => Number.compareInt m y
  | .float x, .int n => (Number.compareInt n x).map Ordering.swap
  | .float x, .float y => Number.compareFloat x y

namespace Tree

/-- The number that a tree is; truth values are zero and one. -/
def num? : Tree → Option Num
  | bool b => some (.int (if b then 1 else 0))
  | int n => some (.int n)
  | float x => some (.float x)
  | nan _ => some (.float (0.0 / 0.0))
  | _ => Option.none

/-- Whether two trees are the same number. -/
def sameNumber (a b : Tree) : Bool :=
  match a.num?, b.num? with
  | some m, some n => m.compare n == some .eq
  | _, _ => false

mutual

/-- Whether two trees are equal as parts of others. -/
def samePart : Tree → Tree → Bool
  | none, none => true
  | nan i, nan j => i == j
  | text s, text t => s == t
  | list xs, list ys => sameAll xs ys
  | name x, name y => x == y
  | operation o xs, operation p ys => o == p && sameAll xs ys
  | comparison o xs, comparison p ys => o == p && sameAll xs ys
  | assign x v, assign y w => x == y && samePart v w
  | when t b, when u c => samePart t u && samePart b c
  | choose t b o, choose u c p => samePart t u && samePart b c && samePart o p
  | give v, give w => samePart v w
  | print v, print w => samePart v w
  | jump l, jump m => samePart l m
  | mark l, mark m => samePart l m
  | a, b => sameNumber a b

/-- Whether two lists of trees are equal, item by item. -/
def sameAll : List Tree → List Tree → Bool
  | [], [] => true
  | x :: xs, y :: ys => samePart x y && sameAll xs ys
  | _, _ => false

end

/-- Whether two trees are equal. -/
def same : Tree → Tree → Bool
  | nan _, nan _ => false
  | a, b => samePart a b

/-- A part that is not a number is equal to itself only. -/
theorem samePart_nan (i j : Nat) : samePart (nan i) (nan j) = (i == j) := by
  simp [samePart]

/-- What is not a number is not equal to itself. -/
theorem same_nan (i j : Nat) : same (nan i) (nan j) = false :=
  rfl

/-- Lists are equal when their items are. -/
theorem same_list (xs ys : List Tree) : same (list xs) (list ys) = sameAll xs ys := by
  simp [same, samePart]

/-- Whether an order sign holds of things that stand to each other as given. -/
def holds (op : String) (o : Option Ordering) : Bool :=
  match o with
  | Option.none => false
  | some .lt => op == "<" || op == "<="
  | some .eq => op == "<=" || op == ">="
  | some .gt => op == ">" || op == ">="

mutual

/-- Whether an order sign holds between two trees. Lists are ordered by their first items that are not
equal, and by their lengths if there are none. -/
def ordered (op : String) : Tree → Tree → Except Fault Bool
  | text s, text t => .ok (holds op (some (Ord.compare s t)))
  | list xs, list ys => orderedAll op xs ys
  | a, b =>
    match a.num?, b.num? with
    | some m, some n => .ok (holds op (m.compare n))
    | _, _ => .error (.unordered op a.kind b.kind)

/-- Whether an order sign holds between two lists. -/
def orderedAll (op : String) : List Tree → List Tree → Except Fault Bool
  | x :: xs, y :: ys => if samePart x y then orderedAll op xs ys else ordered op x y
  | xs, ys => .ok (holds op (some (Ord.compare xs.length ys.length)))

end

end Tree

end Pseudocode
