import Pseudocode.Number.Reading
import Pseudocode.Text.Quoted

/-!
# Values known by their written form

Dates, times, durations, exact numbers, paths and identifiers. Such a value is taken by the text that
writes it down in full, brought to one form for equal values.
-/

namespace Pseudocode.Measure

/-- A value that is known by its written form. -/
inductive Stamp where
  | date (year month day : Nat)
  | time (hour minute second : Nat)
  | duration (seconds : Int)
  | decimal (numeral : String)
  | fraction (numeral : String)
  | path (s : String)
  | identifier (digits : String)
deriving DecidableEq, Repr

namespace Stamp

/-- A sign, if there is one, and what follows it. -/
def signed : List Char → Bool × List Char
  | '-' :: rest => (true, rest)
  | '+' :: rest => (false, rest)
  | cs => (false, cs)

/-- The digits of a decimal numeral without leading zeros, and the power of ten to scale them with. -/
def digitsOf? (cs : List Char) : Option (String × Int) :=
  let (whole, rest) := Number.digitRun cs
  let (places, rest) := match rest with
    | '.' :: more => Number.digitRun more
    | more => ([], more)
  if whole.isEmpty && places.isEmpty then none
  else (Number.exponent? rest).map fun e =>
    (toString (Text.numeral (whole ++ places)), e - places.length)

/-- A decimal as text: positional if that takes no zeros behind the digits and at most five between the
point and the digits, and with an exponent otherwise. -/
def decimalLayout (digits : String) (exp : Int) : String :=
  let n : Int := digits.length
  let lead := exp + n
  let point : Int := if exp ≤ 0 && -6 < lead then lead else 1
  let cs := digits.toList
  let body :=
    if point ≤ 0 then "0." ++ String.ofList (List.replicate (-point).toNat '0') ++ digits
    else if n ≤ point then digits ++ String.ofList (List.replicate (point - n).toNat '0')
    else String.ofList (cs.take point.toNat) ++ "." ++ String.ofList (cs.drop point.toNat)
  let power := lead - point
  if power == 0 then body
  else body ++ "E" ++ (if power < 0 then "-" else "+") ++ toString power.natAbs

/-- The usual text of a decimal numeral. -/
def decimalText (s : String) : String :=
  let (negative, cs) := signed (Text.trim s).toList
  let word := String.ofList (cs.map Char.toLower)
  let size :=
    if word == "inf" || word == "infinity" then "Infinity"
    else if word == "nan" then "NaN"
    else
      match digitsOf? cs with
      | some (digits, exp) => decimalLayout digits exp
      | none => String.ofList cs
  (if negative then "-" else "") ++ size

/-- The ratio that a numeral stands for, its denominator one if none is written. -/
def ratioOf (cs : List Char) : Nat × Nat :=
  match Number.digitRun cs with
  | (whole, '/' :: rest) => (Text.numeral whole, Text.numeral (Number.digitRun rest).1)
  | _ =>
    match digitsOf? cs with
    | some (digits, exp) => (Text.numeral digits.toList * Nat.pow 10 exp.toNat, Nat.pow 10 (-exp).toNat)
    | none => (0, 1)

/-- The two numbers of a fraction in lowest terms, as text. -/
def fractionText (s : String) : String :=
  let (negative, cs) := signed (Text.trim s).toList
  let (num, den) := ratioOf cs
  let common := Nat.gcd num den
  (if negative && num != 0 then "-" else "") ++ toString (num / common) ++ ", " ++ toString (den / common)

/-- The parts of a path between slashes, without empty ones and those that stay where they are. -/
def pathParts (cs : List Char) : List String :=
  (Text.split '/' (String.ofList cs)).filter fun part => part != "" && part != "."

/-- A path without doubled slashes and without one at its end. Two slashes in front stay two. -/
def pathText (s : String) : String :=
  let cs := s.toList
  let slashes := (cs.takeWhile (· == '/')).length
  let root := if slashes == 0 then "" else if slashes == 2 then "//" else "/"
  let whole := root ++ String.intercalate "/" (pathParts cs)
  if whole.isEmpty then "." else whole

/-- The digits of an identifier in groups of eight, four, four, four and twelve. -/
def identifierText (s : String) : String :=
  let cs := (s.toList.filter Char.isAlphanum).map Char.toLower
  let group (start size : Nat) : String := String.ofList ((cs.drop start).take size)
  String.intercalate "-" [group 0 8, group 8 4, group 12 4, group 16 4, group 20 12]

/-- The arguments that make a duration. -/
def durationText (seconds : Int) : String :=
  let days := Int.fdiv seconds 86400
  let rest := Int.fmod seconds 86400
  let parts := (if days == 0 then [] else ["days=" ++ toString days]) ++
    (if rest == 0 then [] else ["seconds=" ++ toString rest])
  if parts.isEmpty then "0" else String.intercalate ", " parts

/-- The name of the kind of a value. -/
def kindName : Stamp → String
  | date .. => "date"
  | time .. => "time"
  | duration _ => "timedelta"
  | decimal _ => "Decimal"
  | fraction _ => "Fraction"
  | path _ => "PurePosixPath"
  | identifier _ => "UUID"

/-- The written form of a value. -/
def text : Stamp → String
  | date y m d => "datetime.date(" ++ toString y ++ ", " ++ toString m ++ ", " ++ toString d ++ ")"
  | time h m s =>
    "datetime.time(" ++ toString h ++ ", " ++ toString m ++ (if s == 0 then "" else ", " ++ toString s) ++ ")"
  | duration n => "datetime.timedelta(" ++ durationText n ++ ")"
  | decimal s => "Decimal(" ++ Text.quoted (decimalText s) ++ ")"
  | fraction s => "Fraction(" ++ fractionText s ++ ")"
  | path s => "PurePosixPath(" ++ Text.quoted (pathText s) ++ ")"
  | identifier s => "UUID(" ++ Text.quoted (identifierText s) ++ ")"

end Stamp

end Pseudocode.Measure
