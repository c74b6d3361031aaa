import Pseudocode.Tree.Basic

/-!
# Faults

Why a tree cannot be built, shown, taken apart or worked out. `Fault.message` has the wording.
-/

namespace Pseudocode

/-- Why something cannot be done with a tree. -/
inductive Fault where
  /-- An operator for two operands has another count of them. -/
  | binaryOperands
  /-- An operator for one operand has another count of them. -/
  | unaryOperands
  /-- A comparison has another count of operands than two. -/
  | comparedOperands
  /-- A comparison has an operator that does not compare. -/
  | invalidOperator (op : String)
  | undefined (x : String)
  | divisionByZero
  | markMissing (label : String)
  /-- The mark stands alone in a body and not in a list, so nothing can go on behind it. -/
  | markAlone
  /-- A whole number has too many digits to be written. -/
  | longNumber
  /-- The operands are neither of one kind nor numbers. -/
  | mixedOperands
  | unknownOperator (op : String)
  | unknownComparison (op : String)
  | notExpression (k : Kind)
  | unsupported (op : String) (left right : Kind)
  | unordered (op : String) (left right : Kind)
  /-- A sequence cannot be repeated by something of this kind. -/
  | repetition (k : Kind)
  /-- A whole number lies beyond the largest fraction. -/
  | wholeTooLarge
  /-- A quotient of whole numbers lies beyond the largest fraction. -/
  | quotientTooLarge
  | noField (k : Kind) (field : String)
  | outOfRange (k : Kind)
  /-- A place is too far from zero to be one of any sequence. -/
  | placeTooLarge
  | noItems (k : Kind)
  /-- The other part of a choice is a single tree, and only lists of them can be shown. -/
  | otherNotShown
deriving DecidableEq

namespace Fault

/-- The message for a fault. -/
def message : Fault → String
  | binaryOperands => "Binary operations must have exactly two operands."
  | unaryOperands => "Unary operations must have exactly one operand."
  | comparedOperands => "Comparisons must have exactly two operands."
  | invalidOperator op => "Invalid operator: " ++ op
  | undefined x => "Variable " ++ x ++ " not defined"
  | divisionByZero => "Division by zero"
  | markMissing label => "Marker " ++ label ++ " not found"
  | markAlone => "Marker's parent is not a list"
  | longNumber =>
    "Exceeds the limit (4300 digits) for integer string conversion; " ++
      "use sys.set_int_max_str_digits() to increase the limit"
  | mixedOperands => "Operands must have the same type."
  | unknownOperator op => "Unknown operator: " ++ op
  | unknownComparison op => "Unknown comparison operator: " ++ op
  | notExpression k => "Unknown expression type: <class '" ++ k.fullWord ++ "'>"
  | unsupported op l r =>
    "unsupported operand type(s) for " ++ op ++ ": '" ++ l.word ++ "' and '" ++ r.word ++ "'"
  | unordered op l r =>
    "'" ++ op ++ "' not supported between instances of '" ++ l.word ++ "' and '" ++ r.word ++ "'"
  | repetition k => "can't multiply sequence by non-int of type '" ++ k.word ++ "'"
  | wholeTooLarge => "int too large to convert to float"
  | quotientTooLarge => "integer division result too large for a float"
  | noField k field => "'" ++ k.word ++ "' object has no attribute '" ++ field ++ "'"
  | outOfRange k => (if k = .text then "string" else k.word) ++ " index out of range"
  | placeTooLarge => "cannot fit 'int' into an index-sized integer"
  | noItems k => "'" ++ k.word ++ "' object is not subscriptable"
  | otherNotShown => "cannot access local variable 'alt' where it is not associated with a value"

end Fault

namespace Tree

/-- An operation, if it has as many operands as its operator takes. -/
def operation? (op : String) (operands : List Tree) : Except Fault Tree :=
  if isBinary op && operands.length != 2 then .error .binaryOperands
  else if isUnary op && operands.length != 1 then .error .unaryOperands
  else .ok (.operation op operands)

/-- A comparison, if it has two operands and compares them. -/
def comparison? (op : String) (operands : List Tree) : Except Fault Tree :=
  if operands.length != 2 then .error .comparedOperands
  else if !isComparing op then .error (.invalidOperator op)
  else .ok (.comparison op operands)

end Tree

end Pseudocode
