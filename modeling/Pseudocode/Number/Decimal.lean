import Pseudocode.Number.Binary

/-!
# Binary64 numbers in decimal

The shortest decimal that reads back as a given number, its layout as text, and rounding to decimal
places. The digits are chosen by exact arithmetic: on finer and finer decimal grids the two neighbours
of the number are tried, and the first that lies among the reals nearest to the number is taken.
-/

namespace Pseudocode.Number

/-- The decimal `digits * 10 ^ exp`. -/
structure Decimal where
  digits : Nat
  exp : Int
deriving DecidableEq, Repr

/-- How `a * 10 ^ i` stands to `n * 2 ^ j`. -/
def compareScaled (a : Nat) (i : Int) (n : Nat) (j : Int) : Ordering :=
  compare ((a * Nat.pow 10 i.toNat) <<< (-j).toNat) ((n <<< j.toNat) * Nat.pow 10 (-i).toNat)

/-- Whether a decimal lies among the reals that round to a number: between the halfway points to its
two neighbours, themselves included when `m` is even. -/
def Magnitude.readsBack (x : Magnitude) (d : Decimal) : Bool :=
  let low := if x.narrowBelow then 4 * x.m - 1 else 4 * x.m - 2
  let high := 4 * x.m + 2
  let closed := x.m % 2 == 0
  let atLow := compareScaled d.digits d.exp low (x.q - 2)
  let atHigh := compareScaled d.digits d.exp high (x.q - 2)
  (atLow == .gt || (closed && atLow == .eq)) && (atHigh == .lt || (closed && atHigh == .eq))

/-- The least `k` at or above a start with `num / den < 10 ^ k`, looking `fuel` steps up. -/
def raiseScale (num den : Nat) (fuel : Nat) (k : Int) : Int :=
  match fuel with
  | 0 => k
  | fuel + 1 =>
    if num * Nat.pow 10 (-k).toNat < den * Nat.pow 10 k.toNat then k else raiseScale num den fuel (k + 1)

/-- The least `k` with `num / den < 10 ^ k`, for a ratio that is not zero. The start is below it by at
most a few steps, as `30103 / 100000` is close to the decimal logarithm of two. -/
def scale (num den : Nat) : Int :=
  let bits : Int := (num.log2 : Int) - (den.log2 : Int)
  raiseScale num den 8 (bits * 30103 / 100000 - 1)

/-- The neighbours of a magnitude on the grid of step `10 ^ e`: the one below and the one above, with
how twice the magnitude stands to their sum. -/
def Magnitude.neighbours (x : Magnitude) (e : Int) : Nat × Nat × Ordering :=
  let (num, den) := x.ratio
  let num := num * Nat.pow 10 (-e).toNat
  let den := den * Nat.pow 10 e.toNat
  (num / den, num / den + 1, compare (2 * num) ((2 * (num / den) + 1) * den))

/-- The decimal on the grid of step `10 ^ e` that reads back as a magnitude, the nearer one of two and
the even one on a tie. -/
def Magnitude.onGrid? (x : Magnitude) (e : Int) : Option Decimal :=
  let (below, above, tilt) := x.neighbours e
  let low : Decimal := ⟨below, e⟩
  let high : Decimal := ⟨above, e⟩
  match x.readsBack low, x.readsBack high, tilt with
  | true, true, .lt => some low
  | true, true, .gt => some high
  | true, true, .eq => some (if below % 2 == 0 then low else high)
  | true, false, _ => some low
  | false, true, _ => some high
  | false, false, _ => none

/-- Moves trailing zeros of the digits into the exponent, as many as `fuel` allows. -/
def Decimal.strip (fuel : Nat) (d : Decimal) : Decimal :=
  match fuel with
  | 0 => d
  | fuel + 1 =>
    if d.digits % 10 == 0 && d.digits != 0 then Decimal.strip fuel ⟨d.digits / 10, d.exp + 1⟩ else d

/-- The exact decimal of a magnitude. -/
def Magnitude.exactDecimal (x : Magnitude) : Decimal :=
  ⟨(x.m <<< x.q.toNat) * Nat.pow 5 (-x.q).toNat, min x.q 0⟩

/-- The shortest decimal that reads back as a magnitude other than zero. -/
def Magnitude.shortest (x : Magnitude) : Decimal :=
  let (num, den) := x.ratio
  let k := scale num den
  let found := (List.range 17).findSome? fun (n : Nat) => x.onGrid? (k - (n + 1 : Nat))
  (found.getD x.exactDecimal).strip 800

/-- How numbers are laid out: the exponents of the leading digit that are written positionally, and
the texts of what has no digits. -/
structure DecimalStyle where
  plainFrom : Int
  plainBelow : Int
  nan : String
  inf : String

/-- A run of zeros. -/
def zeros (n : Nat) : String :=
  String.ofList (List.replicate n '0')

/-- The layout of a decimal without its sign. Positional numbers keep a digit on both sides of the
point; the exponent of the others has a sign and two digits at least. -/
def DecimalStyle.layout (style : DecimalStyle) (d : Decimal) : String :=
  let digits := toString d.digits
  let n := digits.length
  let lead : Int := d.exp + n - 1
  if style.plainFrom ≤ lead ∧ lead < style.plainBelow then
    if 0 ≤ d.exp then digits ++ zeros d.exp.toNat ++ ".0"
    else if 0 ≤ lead then
      let whole := lead.toNat + 1
      String.ofList (digits.toList.take whole) ++ "." ++ String.ofList (digits.toList.drop whole)
    else "0." ++ zeros ((-lead).toNat - 1) ++ digits
  else
    let tail := String.ofList (digits.toList.drop 1)
    let power := toString lead.natAbs
    String.ofList (digits.toList.take 1) ++ (if tail.isEmpty then "" else "." ++ tail) ++ "e" ++
      (if lead < 0 then "-" else "+") ++ zeros (2 - power.length) ++ power

/-- The text of a number. -/
def DecimalStyle.write (style : DecimalStyle) (x : Float) : String :=
  if x.isNaN then style.nan
  else
    let size := magnitude x
    (if isNegative x then "-" else "") ++
      (if x.isInf then style.inf
        else if size.m == 0 then "0.0"
        else style.layout size.shortest)

/-- The multiple of `10 ^ -places` nearest to the size of a finite number, counted in that unit, half
to even. -/
def scaledTo (x : Float) (places : Int) : Nat :=
  let (num, den) := (magnitude x).ratio
  roundDiv (num * Nat.pow 10 places.toNat) (den * Nat.pow 10 (-places).toNat)

/-- A number rounded to decimal places, which may be negative; what is not finite stays. -/
def roundTo (places : Int) (x : Float) : Float :=
  if x.isNaN || x.isInf then x
  else
    let n := scaledTo x places
    withSign (isNegative x) ((ofRatio? (n * Nat.pow 10 (-places).toNat) (Nat.pow 10 places.toNat)).getD infinity)

/-- A number rounded to significant digits; every zero becomes the positive one. -/
def roundDigits (digits : Nat) (x : Float) : Float :=
  if x.isNaN || x.isInf then x
  else
    let (num, den) := (magnitude x).ratio
    if num == 0 then 0.0 else roundTo (digits - scale num den) x

/-- The text of a number with a fixed count of places. -/
def fixed (places : Nat) (x : Float) : String :=
  if x.isNaN then "nan"
  else
    (if isNegative x then "-" else "") ++
      (if x.isInf then "inf"
        else
          let digits := toString (scaledTo x places)
          let padded := zeros (places + 1 - digits.length) ++ digits
          let whole := padded.length - places
          String.ofList (padded.toList.take whole) ++
            (if places == 0 then "" else "." ++ String.ofList (padded.toList.drop whole)))

end Pseudocode.Number
