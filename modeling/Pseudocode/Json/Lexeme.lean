import Pseudocode.Json.Basic
import Pseudocode.Number.Reading
import Pseudocode.Token.Scan

/-!
# The lexemes of JSON text

A JSON text is cut into brackets, commas, colons, texts, numbers and words, each with its place. What is
none of these is kept as one strange character, for the reader to say what it wanted there.
-/

namespace Pseudocode.Json

/-- What is wrong at some place of a text. -/
inductive Problem where
  | byteOrderMark
  | valueWanted
  | nameWanted
  | colonWanted
  | commaWanted
  | moreText
  | openText
  | controlInText
  | badEscape
  | badUnit
deriving DecidableEq, Repr

/-- A piece of JSON text. -/
inductive Lexeme where
  | openList
  | closeList
  | openRecord
  | closeRecord
  | comma
  | colon
  | text (s : String)
  /-- A text with a problem at a place. -/
  | brokenText (p : Problem) (place : Nat)
  /-- A number or a word. -/
  | plain (v : Json)
  /-- A whole number of too many digits. -/
  | longNumber (digits : Nat)
  | strange

/-- The characters that may stand between lexemes. -/
def isGap (c : Char) : Bool :=
  c == ' ' || c == '\t' || c == '\n' || c == '\r'

/-! ## Texts -/

/-- The value of a hexadecimal digit. -/
def hexDigit? (c : Char) : Option Nat :=
  if '0' ≤ c && c ≤ '9' then some (c.toNat - '0'.toNat)
  else if 'a' ≤ c && c ≤ 'f' then some (c.toNat - 'a'.toNat + 10)
  else if 'A' ≤ c && c ≤ 'F' then some (c.toNat - 'A'.toNat + 10)
  else none

/-- The number of four hexadecimal digits. -/
def hexUnit? (a b c d : Char) : Option Nat := do
  return ((← hexDigit? a) * 16 + (← hexDigit? b)) * 256 + (← hexDigit? c) * 16 + (← hexDigit? d)

/-- What the character after a backslash stands for. -/
def escaped? (c : Char) : Option Nat :=
  match c with
  | '"' => some 34
  | '\\' => some 92
  | '/' => some 47
  | 'b' => some 8
  | 'f' => some 12
  | 'n' => some 10
  | 'r' => some 13
  | 't' => some 9
  | _ => none

/-- The code units of a text up to its closing quote, and how many characters these took with the quote.
The text starts at `start`, and `pos` is the place of the first character given. -/
def units (start pos : Nat) : List Char → Except (Problem × Nat) (List Nat × Nat)
  | [] => .error (.openText, start)
  | '"' :: _ => .ok ([], 1)
  | '\\' :: [] => .error (.openText, start)
  | '\\' :: 'u' :: a :: b :: c :: d :: e :: rest =>
    match hexUnit? a b c d with
    | none => .error (.badUnit, pos + 1)
    | some n => do
      let (more, size) ← units start (pos + 6) (e :: rest)
      return (n :: more, size + 6)
  | '\\' :: c :: rest =>
    if c == 'u' then .error (.badUnit, pos + 1)
    else
      match escaped? c with
      | none => .error (.badEscape, pos)
      | some n => do
        let (more, size) ← units start (pos + 2) rest
        return (n :: more, size + 2)
  | c :: rest =>
    if c.toNat < 0x20 then .error (.controlInText, pos)
    else do
      let (more, size) ← units start (pos + 1) rest
      return (c.toNat :: more, size + 1)

/-- Whether a unit is the first half of a pair. -/
def isFirstHalf (n : Nat) : Bool :=
  0xd800 ≤ n && n ≤ 0xdbff

/-- Whether a unit is the second half of a pair. -/
def isSecondHalf (n : Nat) : Bool :=
  0xdc00 ≤ n && n ≤ 0xdfff

/-- The characters of code units: two halves make a character, and half a pair on its own is replaced. -/
def characters : List Nat → List Char
  | [] => []
  | [n] => [if isFirstHalf n || isSecondHalf n then Char.ofNat 0xfffd else Char.ofNat n]
  | n :: k :: rest =>
    if isFirstHalf n && isSecondHalf k then
      Char.ofNat (0x10000 + (n - 0xd800) * 0x400 + (k - 0xdc00)) :: characters rest
    else
      (if isFirstHalf n || isSecondHalf n then Char.ofNat 0xfffd else Char.ofNat n) ::
        characters (k :: rest)

/-! ## Numbers -/

/-- Whether a character is one of the ten digits of a JSON number. -/
def isPlainDigit (c : Char) : Bool :=
  '0' ≤ c && c ≤ '9'

/-- The whole part of a number: a zero, or digits that start with none. -/
def wholePart : List Char → List Char
  | '0' :: _ => ['0']
  | cs => cs.takeWhile isPlainDigit

/-- The digits after a point, if a text starts with these. -/
def fractionPart : List Char → List Char
  | '.' :: rest => rest.takeWhile isPlainDigit
  | _ => []

/-- The exponent that a text starts with, and how many characters it takes. -/
def exponentPart? : List Char → Option (Int × Nat)
  | mark :: rest =>
    if mark == 'e' || mark == 'E' then
      let (negative, sign, rest) := match rest with
        | '-' :: more => (true, 1, more)
        | '+' :: more => (false, 1, more)
        | more => (false, 0, more)
      let digits := rest.takeWhile isPlainDigit
      let n : Int := Text.numeral digits
      if digits.isEmpty then none
      else some (if negative then -n else n, 1 + sign + digits.length)
    else none
  | [] => none

/-- The unsigned number that a text starts with, and how many characters it takes. -/
def number? (negative : Bool) (cs : List Char) : Option (Lexeme × Nat) :=
  let whole := wholePart cs
  let rest := cs.drop whole.length
  let fraction := fractionPart rest
  let pointed := if fraction.isEmpty then 0 else 1 + fraction.length
  let exponent := exponentPart? (rest.drop pointed)
  let size := whole.length + pointed + (exponent.map (·.2)).getD 0
  if whole.isEmpty then none
  else if fraction.isEmpty && exponent.isNone then
    let n : Int := Text.numeral whole
    some (if digitLimit < whole.length then .longNumber whole.length
      else .plain (.whole (if negative then -n else n)), size)
  else
    let e := (exponent.map (·.1)).getD 0
    let x := Number.ofScientific (Text.numeral (whole ++ fraction)) (e - fraction.length)
    some (.plain (.real (Number.withSign negative x)), size)

/-! ## Lexemes -/

/-- The words and what they stand for. -/
def words : List (String × Json) :=
  [("null", .null), ("true", .bool true), ("false", .bool false), ("NaN", .real (0.0 / 0.0)),
   ("Infinity", .real Number.infinity), ("-Infinity", .real (Number.withSign true Number.infinity))]

/-- The lexeme that starts with a character at `pos`, and how many of the characters after it belong to
it. -/
def lexeme (pos : Nat) (c : Char) (rest : List Char) : Lexeme × Nat :=
  match c with
  | '[' => (.openList, 0)
  | ']' => (.closeList, 0)
  | '\x7b' => (.openRecord, 0)
  | '\x7d' => (.closeRecord, 0)
  | ',' => (.comma, 0)
  | ':' => (.colon, 0)
  | '"' =>
    match units pos (pos + 1) rest with
    | .ok (ns, size) => (.text (String.ofList (characters ns)), size)
    | .error (p, place) => (.brokenText p place, rest.length)
  | c =>
    match words.find? fun (w, _) => w.toList.isPrefixOf (c :: rest) with
    | some (w, v) => (.plain v, w.length - 1)
    | none =>
      match if c == '-' then number? true rest else number? false (c :: rest) with
      | some (l, size) => (l, if c == '-' then size else size - 1)
      | none => (.strange, 0)

/-- The lexemes of a text with their places. -/
def lexemes (pos : Nat) : List Char → List (Nat × Lexeme)
  | [] => []
  | c :: rest =>
    if isGap c then lexemes (pos + 1) rest
    else
      let (l, size) := lexeme pos c rest
      (pos, l) :: lexemes (pos + 1 + size) (rest.drop size)
termination_by cs => cs.length

end Pseudocode.Json
