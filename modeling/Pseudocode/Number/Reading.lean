import Pseudocode.Number.Binary
import Pseudocode.Text.Blank
import Pseudocode.Text.Digit

/-!
# Reading numbers

The whole and fractional numbers that a text of digits stands for. A fractional number is read as the
binary64 number nearest to the decimal written, or as infinity beyond the largest.
-/

namespace Pseudocode.Number

open Pseudocode.Text

/-- The number nearest to `digits * 10 ^ exp`. -/
def ofDecimal (digits : Nat) (exp : Int) : Float :=
  (ofRatio? (digits * Nat.pow 10 exp.toNat) (Nat.pow 10 (-exp).toNat)).getD infinity

/-- The number written with a whole and a fractional run of digits. -/
def ofPlaces (whole fraction : List Char) : Float :=
  ofDecimal (numeral (whole ++ fraction)) (-(fraction.length : Int))

/-- The number nearest to `digits * 10 ^ exp` for any exponent, however far from zero. -/
def ofScientific (digits : Nat) (exp : Int) : Float :=
  let lead : Int := exp + (digits.log2 : Int) * 30103 / 100000
  if digits == 0 || lead < -400 then 0.0
  else if 400 < lead then infinity
  else ofDecimal digits exp

/-- A run of digits in which single underscores may stand between two digits; gives back the digits
and the rest. -/
def digitRun : List Char → List Char × List Char
  | [] => ([], [])
  | c :: '_' :: d :: rest =>
    if !isDigit c then ([], c :: '_' :: d :: rest)
    else if !isDigit d then ([c], '_' :: d :: rest)
    else
      let run := digitRun (d :: rest)
      (c :: run.1, run.2)
  | c :: rest =>
    if !isDigit c then ([], c :: rest)
    else
      let run := digitRun rest
      (c :: run.1, run.2)

/-- The exponent part of a number: nothing, or a mark, a sign if wanted and digits up to the end. -/
def exponent? : List Char → Option Int
  | [] => some 0
  | mark :: rest =>
    if mark == 'e' || mark == 'E' then
      let (negative, rest) := match rest with
        | '-' :: more => (true, more)
        | '+' :: more => (false, more)
        | more => (false, more)
      match digitRun rest with
      | (d :: run, []) =>
        let n : Int := numeral (d :: run)
        some (if negative then -n else n)
      | _ => none
    else none

/-- An unsigned number of digits with a point and an exponent if wanted. -/
def unsigned? (cs : List Char) : Option Float :=
  let (whole, rest) := digitRun cs
  let (fraction, rest) := match rest with
    | '.' :: more => digitRun more
    | more => ([], more)
  if whole.isEmpty && fraction.isEmpty then none
  else (exponent? rest).map fun e => ofScientific (numeral (whole ++ fraction)) (e - fraction.length)

/-- The number that a text stands for: blanks around it, a sign, and digits or a word for what has no
digits. -/
def read? (s : String) : Option Float :=
  let cs := (trim s).toList
  let (negative, body) := match cs with
    | '-' :: rest => (true, rest)
    | '+' :: rest => (false, rest)
    | rest => (false, rest)
  let word := String.ofList (body.map Char.toLower)
  let size :=
    if word == "inf" || word == "infinity" then some infinity
    else if word == "nan" then some (0.0 / 0.0)
    else unsigned? body
  size.map (withSign negative)

end Pseudocode.Number
