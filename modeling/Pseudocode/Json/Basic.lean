/-!
# JSON values

A JSON value. Whole numbers of any size are kept apart from binary64 numbers, and the fields of a record
keep the order in which their names first came.
-/

namespace Pseudocode

/-- A JSON value. -/
inductive Json where
  | null
  | bool (b : Bool)
  | whole (n : Int)
  | real (x : Float)
  | text (s : String)
  | list (items : List Json)
  | record (fields : List (String × Json))
deriving Inhabited

namespace Json

/-- Fields with one of them set: in its place if the name is there, else at the end. -/
def put {α : Type} (name : String) (v : α) : List (String × α) → List (String × α)
  | [] => [(name, v)]
  | (k, old) :: rest => if k == name then (k, v) :: rest else (k, old) :: put name v rest

/-- The field of a name. -/
def field? (name : String) : Json → Option Json
  | record fields => fields.lookup name
  | _ => none

/-- The items of a list; nothing else has any. -/
def items : Json → List Json
  | list items => items
  | _ => []

/-- The fields of a record; nothing else has any. -/
def fields : Json → List (String × Json)
  | record fields => fields
  | _ => []

/-- The text that a value is. -/
def text? : Json → Option String
  | text s => some s
  | _ => none

/-- The whole number that a value is. -/
def whole? : Json → Option Int
  | whole n => some n
  | _ => none

/-- The truth value that a value is. -/
def bool? : Json → Option Bool
  | bool b => some b
  | _ => none

/-- Whether a value counts as true: neither null, false, zero nor empty. -/
def holds : Json → Bool
  | null => false
  | bool b => b
  | whole n => n != 0
  | real x => x != 0.0
  | text s => !s.isEmpty
  | list items => !items.isEmpty
  | record fields => !fields.isEmpty

/-- A field that was set is there. -/
theorem lookup_put {α : Type} (name : String) (v : α) (fields : List (String × α)) :
    (put name v fields).lookup name = some v := by
  induction fields with
  | nil => simp [put]
  | cons kv rest ih =>
    obtain ⟨k, old⟩ := kv
    by_cases h : k = name
    · simp [put, h]
    · have hne : (name == k) = false := by simpa using Ne.symm h
      simp [put, h, List.lookup_cons, hne, ih]

end Json

end Pseudocode
