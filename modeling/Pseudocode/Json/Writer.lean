import Pseudocode.Json.Basic
import Pseudocode.Number.Decimal
import Pseudocode.Text.Quoted

/-!
# Writing JSON

JSON text with a blank after commas and colons, and nothing beyond ASCII: other characters are escaped by
their code units.
-/

namespace Pseudocode.Json

/-- Numbers with a fraction are written as in programs; the words for what has no digits are JSON's. -/
def numberStyle : Number.DecimalStyle where
  plainFrom := -4
  plainBelow := 16
  nan := "NaN"
  inf := "Infinity"

/-- An escaped code unit. -/
def unitText (n : Nat) : String :=
  "\\u" ++ Text.hex 4 n

/-- A character as it stands in a JSON text. -/
def escape (c : Char) : String :=
  let n := c.toNat
  if c == '"' then "\\\""
  else if c == '\\' then "\\\\"
  else if c == '\n' then "\\n"
  else if c == '\r' then "\\r"
  else if c == '\t' then "\\t"
  else if n == 8 then "\\b"
  else if n == 12 then "\\f"
  else if 0x20 ≤ n && n < 0x7f then String.singleton c
  else if n == 0x7f then String.singleton c
  else if n < 0x10000 then unitText n
  else unitText (0xd800 + (n - 0x10000) / 0x400) ++ unitText (0xdc00 + (n - 0x10000) % 0x400)

/-- A text in quotes. -/
def quoted (s : String) : String :=
  "\"" ++ String.join (s.toList.map escape) ++ "\""

mutual

/-- The JSON text of a value. -/
def write : Json → String
  | null => "null"
  | bool true => "true"
  | bool false => "false"
  | whole n => toString n
  | real x => numberStyle.write x
  | text s => quoted s
  | list items => "[" ++ String.intercalate ", " (writeItems items) ++ "]"
  | record fields => "\x7b" ++ String.intercalate ", " (writeFields fields) ++ "\x7d"

/-- The texts of the items of a list. -/
def writeItems : List Json → List String
  | [] => []
  | v :: rest => write v :: writeItems rest

/-- The texts of the fields of a record. -/
def writeFields : List (String × Json) → List String
  | [] => []
  | (k, v) :: rest => (quoted k ++ ": " ++ write v) :: writeFields rest

end

end Pseudocode.Json
