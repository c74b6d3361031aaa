import Pseudocode.Json.Reader
import Pseudocode.Number.Reading
import Pseudocode.Text.Quoted

/-!
# Errors of measuring

The errors that benches raise and that the tools meet when they read what others wrote, and the reading of
JSON records that may lack what is looked for.
-/

namespace Pseudocode.Measure

/-- An error that was raised. -/
structure Raised where
  kind : String
  message : String
deriving DecidableEq, Repr

namespace Raised

/-- The text of an error. A missing key is named by its written form. -/
def text (e : Raised) : String :=
  if e.kind == "KeyError" then Text.quoted e.message else e.message

/-- The kind and the text of an error. -/
def line (e : Raised) : String :=
  e.kind ++ ": " ++ e.text

/-- The kind of an error where a result's kind is asked for. -/
def bracketed (e : Raised) : String :=
  "<" ++ e.kind ++ ">"

/-- A bench took longer than it may. -/
def timeout : Raised :=
  ⟨"TimeoutError", ""⟩

end Raised

/-! ## Records of others -/

/-- The name of the kind of a JSON value. -/
def kindOf : Json → String
  | .null => "NoneType"
  | .bool _ => "bool"
  | .whole _ => "int"
  | .real _ => "float"
  | .text _ => "str"
  | .list _ => "list"
  | .record _ => "dict"

/-- The error of looking for what a value does not have. -/
def noField (v : Json) (name : String) : Raised :=
  ⟨"AttributeError", "'" ++ kindOf v ++ "' object has no attribute '" ++ name ++ "'"⟩

/-- An error about a JSON text. -/
def jsonError (f : Json.Fault) : Raised :=
  match f with
  | .found .. => ⟨"JSONDecodeError", f.message⟩
  | .longNumber _ => ⟨"ValueError", f.message⟩

/-- The number that a JSON value is or is the text of. -/
def toFloat : Json → Except Raised Float
  | .real x => .ok x
  | .bool b => .ok (if b then 1.0 else 0.0)
  | .whole n =>
    match Number.ofInt? n with
    | some x => .ok x
    | none => .error ⟨"OverflowError", "int too large to convert to float"⟩
  | .text s =>
    match Number.read? s with
    | some x => .ok x
    | none => .error ⟨"ValueError", "could not convert string to float: " ++ Text.quoted s⟩
  | v =>
    .error ⟨"TypeError", "float() argument must be a string or a real number, not '" ++
      kindOf v ++ "'"⟩

/-- The field of a record that has to be there. -/
def required (name : String) (v : Json) : Except Raised Json :=
  match v.field? name with
  | some part => .ok part
  | none => .error ⟨"KeyError", name⟩

/-- A field that may be missing or empty. -/
def optional (name : String) (v : Json) : Json :=
  match v.field? name with
  | some part => if part.holds then part else .null
  | none => .null

end Pseudocode.Measure
