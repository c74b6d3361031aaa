import Pseudocode.Json.Basic
import Pseudocode.Measure.Digest
import Pseudocode.Measure.Stamp
import Pseudocode.Tree.Order
import Pseudocode.Tree.Text

/-!
# Results of benches and their fingerprints

What a bench hands back, and a fingerprint of it that is the same for equal results. `Sample.bytes` has
the bytes that are digested: numbers, texts and sequences as they come, mappings and sets in the order of
the fingerprints of their keys.
-/

namespace Pseudocode.Measure

/-- The kinds of byte strings. -/
inductive BytesForm where
  | fixed
  | growing
  | view
deriving DecidableEq, Repr

/-- What a bench may hand back. -/
inductive Sample where
  | none
  | bool (b : Bool)
  | int (n : Int)
  | float (x : Float)
  | complex (re im : Float)
  | text (s : String)
  | bytes (form : BytesForm) (data : List UInt8)
  | list (items : List Sample)
  | tuple (items : List Sample)
  | set (frozen : Bool) (items : List Sample)
  | mapping (entries : List (Sample × Sample))
  /-- A part of a program, by its fields. -/
  | node (kind : Kind) (fields : List (String × Sample))
  | stamp (s : Stamp)
  | range (n : Int)
  /-- A type of values. -/
  | type (name : String)
  /-- An error that is handed back and not raised. -/
  | error (kind : String)
deriving Inhabited

namespace Sample

/-! ## Samples of other values -/

mutual

/-- A tree as a sample. -/
def ofTree : Tree → Sample
  | .none => none
  | .bool b => bool b
  | .int n => int n
  | .float x => float x
  | .nan _ => float (0.0 / 0.0)
  | .text s => text s
  | .list items => list (ofTrees items)
  | .name x => node .name [("name", text x), ("value", none)]
  | .operation op operands => node .operation [("operator", text op), ("operands", list (ofTrees operands))]
  | .comparison op operands => node .comparison [("operator", text op), ("operands", list (ofTrees operands))]
  | .assign target value => node .assign [("mneumonic", text target), ("value", ofTree value)]
  | .when test body => node .when [("expr", ofTree test), ("do", ofTree body)]
  | .choose test body other =>
    node .choose [("expr", ofTree test), ("do", ofTree body), ("alternate", ofTree other)]
  | .give value => node .give [("value", ofTree value)]
  | .print value => node .print [("value", ofTree value)]
  | .jump label => node .jump [("label", ofTree label)]
  | .mark label => node .mark [("label", ofTree label)]

/-- Trees as samples. -/
def ofTrees : List Tree → List Sample
  | [] => []
  | t :: rest => ofTree t :: ofTrees rest

end

mutual

/-- A JSON value as a sample. -/
def ofJson : Json → Sample
  | .null => none
  | .bool b => bool b
  | .whole n => int n
  | .real x => float x
  | .text s => text s
  | .list items => list (ofJsons items)
  | .record fields => mapping (ofFields fields)

/-- JSON values as samples. -/
def ofJsons : List Json → List Sample
  | [] => []
  | v :: rest => ofJson v :: ofJsons rest

/-- The fields of a record as the entries of a mapping. -/
def ofFields : List (String × Json) → List (Sample × Sample)
  | [] => []
  | (k, v) :: rest => (text k, ofJson v) :: ofFields rest

end

/-! ## Equality -/

/-- The number that a sample is; truth values are zero and one. -/
def num? : Sample → Option Num
  | bool b => some (.int (if b then 1 else 0))
  | int n => some (.int n)
  | float x => some (.float x)
  | _ => Option.none

/-- Whether two samples are the same number. -/
def sameNumber (a b : Sample) : Bool :=
  match a.num?, b.num? with
  | some m, some n => m.compare n == some .eq
  | _, _ => false

mutual

/-- Whether two samples are equal, for those that can stand in sets. -/
def same : Sample → Sample → Bool
  | none, none => true
  | text s, text t => s == t
  | bytes _ s, bytes _ t => s == t
  | complex a b, complex c d => a == c && b == d
  | tuple xs, tuple ys => sameAll xs ys
  | set _ xs, set _ ys => xs.length == ys.length && within xs ys
  | stamp s, stamp t => s.text == t.text
  | range m, range n => m.toNat == n.toNat
  | type s, type t => s == t
  | a, b => sameNumber a b

/-- Whether two runs of samples are equal, one by one. -/
def sameAll : List Sample → List Sample → Bool
  | [], [] => true
  | x :: xs, y :: ys => same x y && sameAll xs ys
  | _, _ => false

/-- Whether every sample of a run is equal to one of another. -/
def within : List Sample → List Sample → Bool
  | [], _ => true
  | x :: xs, ys => ys.any (same x) && within xs ys

end

/-- A set of samples: of equal ones the first is kept. -/
def setOf (frozen : Bool) (items : List Sample) : Sample :=
  set frozen (items.foldl (fun kept x => if kept.any x.same then kept else kept ++ [x]) [])

/-- Entries with one more: an equal key takes the new value. -/
def putEntry (k v : Sample) : List (Sample × Sample) → List (Sample × Sample)
  | [] => [(k, v)]
  | (l, w) :: rest => if l.same k then (l, v) :: rest else (l, w) :: putEntry k v rest

/-- A mapping of entries. -/
def mappingOf (entries : List (Sample × Sample)) : Sample :=
  mapping (entries.foldl (fun kept (k, v) => putEntry k v kept) [])

/-! ## Fingerprints -/

/-- The name of the kind of a sample. -/
def kindName : Sample → String
  | none => "NoneType"
  | bool _ => "bool"
  | int _ => "int"
  | float _ => "float"
  | complex _ _ => "complex"
  | text _ => "str"
  | bytes .fixed _ => "bytes"
  | bytes .growing _ => "bytearray"
  | bytes .view _ => "memoryview"
  | list _ => "list"
  | tuple _ => "tuple"
  | set false _ => "set"
  | set true _ => "frozenset"
  | mapping _ => "dict"
  | node k _ => k.word
  | stamp s => s.kindName
  | range _ => "range"
  | type _ => "type"
  | error kind => kind

/-- The bytes of a text. -/
def utf8 (s : String) : List UInt8 :=
  s.toUTF8.toList

/-- How deep a sample is looked into. -/
def depthLimit : Nat := 8

/-- How many items of a sequence are looked at. -/
def itemLimit : Nat := 2000

/-- The text of a number with six significant digits. -/
def floatText (x : Float) : String :=
  fractionStyle.write (Number.roundDigits 6 x)

/-- What a count of parts is announced by. -/
def header (letter : String) (n : Nat) : List UInt8 :=
  utf8 (letter ++ toString n)

/-- The digest of some bytes as text. -/
def digestText (data : List UInt8) : String :=
  (Digest.ofBytes data).text

/-- Byte runs in the order of their keys, one after the other. -/
def inOrder (parts : List (String × List UInt8)) : List UInt8 :=
  (parts.mergeSort fun a b => a.1 ≤ b.1).flatMap (·.2)

mutual

/-- The bytes that stand for a sample at some depth. -/
def bytesAt (depth : Nat) (x : Sample) : List UInt8 :=
  if depthLimit < depth then utf8 "..."
  else
    match x with
    | none => utf8 "None"
    | bool b => utf8 (if b then "True" else "False")
    | int n => utf8 (toString n)
    | float x => utf8 (floatText x)
    | complex re im => utf8 ("c" ++ floatText re ++ floatText im)
    | text s => utf8 ("s" ++ s)
    | bytes _ data => utf8 "s" ++ data
    | list items => header "L" items.length ++ ((bytesAll (depth + 1) items).take itemLimit).flatten
    | tuple items => header "L" items.length ++ ((bytesAll (depth + 1) items).take itemLimit).flatten
    | set _ items =>
      header "S" items.length ++ inOrder ((bytesAll 0 items).map fun b =>
        (digestText b, utf8 (digestText b)))
    | mapping entries => header "D" entries.length ++ inOrder (bytesEntries (depth + 1) entries)
    | node _ fields => header "D" fields.length ++ inOrder (bytesFields (depth + 1) fields)
    | stamp s => utf8 s.text
    | range _ => utf8 "<builtins.range>"
    | type _ => utf8 "<builtins.type>"
    | error kind => utf8 ("<builtins." ++ kind ++ ">")

/-- The bytes that stand for each of some samples. -/
def bytesAll (depth : Nat) : List Sample → List (List UInt8)
  | [] => []
  | x :: rest => bytesAt depth x :: bytesAll depth rest

/-- The bytes that stand for each entry of a mapping, with the fingerprint of its key. -/
def bytesEntries (depth : Nat) : List (Sample × Sample) → List (String × List UInt8)
  | [] => []
  | (k, v) :: rest =>
    (digestText (bytesAt 0 k), bytesAt depth k ++ bytesAt depth v) :: bytesEntries depth rest

/-- The bytes that stand for each field of a node, with the fingerprint of its name. -/
def bytesFields (depth : Nat) : List (String × Sample) → List (String × List UInt8)
  | [] => []
  | (k, v) :: rest =>
    let name := if depthLimit < depth then utf8 "..." else utf8 ("s" ++ k)
    (digestText (utf8 ("s" ++ k)), name ++ bytesAt depth v) :: bytesFields depth rest

end

/-- The fingerprint of a sample. -/
def fingerprint (x : Sample) : String :=
  digestText (bytesAt 0 x)

end Sample

end Pseudocode.Measure
