import Pseudocode.Json.Lexeme

/-!
# Reading JSON

A pushdown machine reads the lexemes of a text: a stack of the lists and records that are still open, and
what it wants next. The first lexeme that is not wanted, or the end of the text, is the place of the fault.
-/

namespace Pseudocode.Json

/-- A list or record that is not closed yet, its parts last first. -/
inductive Open where
  | list (items : List Json)
  /-- A record, with the name of the field that is being read. -/
  | record (fields : List (String × Json)) (name : String)

/-- What may come next. -/
inductive Want where
  | value
  /-- A value, or the end of the list just opened. -/
  | item
  /-- A field name, or the end of the record just opened. -/
  | firstName
  | name
  | colon
  /-- A comma, or the end of the innermost list or record. -/
  | comma
  /-- Nothing: the value is complete. -/
  | nothing (v : Json)

/-- The state of the machine. -/
structure Reading where
  stack : List Open
  want : Want

/-- Why a text is no JSON. -/
inductive Fault where
  | found (p : Problem) (line column place : Nat)
  | longNumber (digits : Nat)
deriving DecidableEq, Repr

/-- A fault before its line is known. -/
inductive Trouble where
  | found (p : Problem) (place : Nat)
  | longNumber (digits : Nat)

namespace Reading

/-- The machine before a text. -/
def start : Reading :=
  ⟨[], .value⟩

/-- The machine after a complete value. -/
def take (v : Json) : List Open → Reading
  | [] => ⟨[], .nothing v⟩
  | .list items :: rest => ⟨.list (v :: items) :: rest, .comma⟩
  | .record fields name :: rest => ⟨.record ((name, v) :: fields) name :: rest, .comma⟩

/-- The record of fields given last first. A name that comes again takes the later value. -/
def recordOf (fields : List (String × Json)) : Json :=
  .record (fields.foldr (fun (k, v) done => put k v done) [])

/-- What was wanted, as a problem. -/
def problem : Want → Problem
  | .value | .item => .valueWanted
  | .firstName | .name => .nameWanted
  | .colon => .colonWanted
  | .comma => .commaWanted
  | .nothing _ => .moreText

/-- The machine after a lexeme where a value may stand. -/
def feedValue (place : Nat) (stack : List Open) : Lexeme → Except Trouble Reading
  | .openList => .ok ⟨.list [] :: stack, .item⟩
  | .openRecord => .ok ⟨.record [] "" :: stack, .firstName⟩
  | .text s => .ok (take (.text s) stack)
  | .plain v => .ok (take v stack)
  | .brokenText p there => .error (.found p there)
  | .longNumber digits => .error (.longNumber digits)
  | _ => .error (.found .valueWanted place)

/-- The machine after a lexeme where a field name may stand. -/
def feedName (place : Nat) (fields : List (String × Json)) (rest : List Open) :
    Lexeme → Except Trouble Reading
  | .text s => .ok ⟨.record fields s :: rest, .colon⟩
  | .brokenText p there => .error (.found p there)
  | _ => .error (.found .nameWanted place)

/-- The machine after a lexeme. -/
def feed (place : Nat) (l : Lexeme) (r : Reading) : Except Trouble Reading :=
  match r.want, r.stack, l with
  | .item, .list _ :: rest, .closeList => .ok (take (.list []) rest)
  | .firstName, .record _ _ :: rest, .closeRecord => .ok (take (.record []) rest)
  | .comma, .list items :: rest, .closeList => .ok (take (.list items.reverse) rest)
  | .comma, .record fields _ :: rest, .closeRecord => .ok (take (recordOf fields) rest)
  | .comma, .list items :: rest, .comma => .ok ⟨.list items :: rest, .value⟩
  | .comma, .record fields name :: rest, .comma => .ok ⟨.record fields name :: rest, .name⟩
  | .colon, stack, .colon => .ok ⟨stack, .value⟩
  | .value, stack, l | .item, stack, l => feedValue place stack l
  | .firstName, .record fields _ :: rest, l | .name, .record fields _ :: rest, l =>
    feedName place fields rest l
  | want, _, _ => .error (.found (problem want) place)

/-- The value after all lexemes of a text that is `size` characters long. -/
def finish (size : Nat) : List (Nat × Lexeme) → Reading → Except Trouble Json
  | [], ⟨_, .nothing v⟩ => .ok v
  | [], ⟨_, want⟩ => .error (.found (problem want) size)
  | (place, l) :: rest, r =>
    match r.feed place l with
    | .error t => .error t
    | .ok r => finish size rest r

end Reading

/-- A fault with the line and column of its place in a text. -/
def Trouble.locate (cs : List Char) : Trouble → Fault
  | .longNumber digits => .longNumber digits
  | .found p place =>
    let before := cs.take place
    let line := before.count '\n' + 1
    let column := (before.reverse.takeWhile (· != '\n')).length + 1
    .found p line column place

/-- The value that a text stands for. -/
def read (s : String) : Except Fault Json :=
  let cs := s.toList
  if cs.head? == some (Char.ofNat 0xfeff) then .error (.found .byteOrderMark 1 1 0)
  else
    match Reading.start.finish cs.length (lexemes 0 cs) with
    | .ok v => .ok v
    | .error t => .error (t.locate cs)

/-- The wording of a problem. -/
def Problem.message : Problem → String
  | byteOrderMark => "Unexpected UTF-8 BOM (decode using utf-8-sig)"
  | valueWanted => "Expecting value"
  | nameWanted => "Expecting property name enclosed in double quotes"
  | colonWanted => "Expecting ':' delimiter"
  | commaWanted => "Expecting ',' delimiter"
  | moreText => "Extra data"
  | openText => "Unterminated string starting at"
  | controlInText => "Invalid control character at"
  | badEscape => "Invalid \\escape"
  | badUnit => "Invalid \\uXXXX escape"

/-- The message for a fault. -/
def Fault.message : Fault → String
  | found p line column place =>
    p.message ++ ": line " ++ toString line ++ " column " ++ toString column ++ " (char " ++
      toString place ++ ")"
  | longNumber n =>
    "Exceeds the limit (4300 digits) for integer string conversion: value has " ++ toString n ++
      " digits; use sys.set_int_max_str_digits() to increase the limit"

end Pseudocode.Json
