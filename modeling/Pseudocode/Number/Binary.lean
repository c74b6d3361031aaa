/-!
# Binary64 numbers, exactly

A finite binary64 number is a whole number of units `2 ^ q`. This module takes such numbers apart,
puts the number nearest to a given ratio together, and compares them with whole numbers, all in exact
arithmetic on naturals and integers.
-/

namespace Pseudocode.Number

/-- A quotient rounded to the nearest natural number, a half to the even one. -/
def roundDiv (num den : Nat) : Nat :=
  let q := num / den
  match compare (2 * (num % den)) den with
  | .lt => q
  | .gt => q + 1
  | .eq => if q % 2 == 0 then q else q + 1

/-- The size of a finite number, `m * 2 ^ q`. -/
structure Magnitude where
  m : Nat
  q : Int
  /-- The number below is only half as far away as the number above. -/
  narrowBelow : Bool
deriving DecidableEq, Repr

namespace Magnitude

/-- The size of the finite number with the given bits. -/
def ofBits (b : UInt64) : Magnitude :=
  let e := ((b >>> 52) &&& 0x7FF).toNat
  let f := (b &&& 0xFFFFFFFFFFFFF).toNat
  if e == 0 then ⟨f, -1074, false⟩ else ⟨0x10000000000000 + f, (e : Int) - 1075, f == 0 && e > 1⟩

/-- A magnitude as a fraction of naturals. -/
def ratio (x : Magnitude) : Nat × Nat :=
  (x.m <<< x.q.toNat, 1 <<< (-x.q).toNat)

end Magnitude

/-- The size of a finite number. -/
def magnitude (x : Float) : Magnitude :=
  Magnitude.ofBits x.toBits

/-- Whether the sign of a number is minus, that of a zero included. -/
def isNegative (x : Float) : Bool :=
  x.toBits >>> 63 == 1

/-- The positive infinity. -/
def infinity : Float :=
  Float.ofBits 0x7FF0000000000000

/-- The exponent of the unit in which a ratio is rounded: 53 bits are kept, fewer near zero. -/
def unitExponent (num den : Nat) : Int :=
  let guess : Int := (num.log2 : Int) - (den.log2 : Int)
  let e := if num <<< (-guess).toNat < den <<< guess.toNat then guess - 1 else guess
  max (e - 52) (-1074)

/-- The number nearest to a ratio of naturals, of two the even one, or nothing beyond the largest. -/
def ofRatio? (num den : Nat) : Option Float :=
  if num == 0 then some 0.0
  else
    let q := unitExponent num den
    let m := roundDiv (num <<< (-q).toNat) (den <<< q.toNat)
    let bits := (q + 1074).toNat <<< 52 + m
    if bits < 0x7FF0000000000000 then some (Float.ofBits bits.toUInt64) else none

/-- A number with a minus sign if asked for. -/
def withSign (negative : Bool) (x : Float) : Float :=
  if negative then -x else x

/-- The number nearest to a whole number, or nothing beyond the largest. -/
def ofInt? (n : Int) : Option Float :=
  (ofRatio? n.natAbs 1).map (withSign (decide (n < 0)))

/-- The number nearest to a quotient of whole numbers, or nothing beyond the largest. The sign follows
from the signs of both, so that zero by a negative number is the negative zero. -/
def ofQuotient? (a b : Int) : Option Float :=
  (ofRatio? a.natAbs b.natAbs).map (withSign (decide (a < 0) != decide (b < 0)))

/-- How a whole number stands to a number, exactly; nothing stands to what is not a number. -/
def compareInt (n : Int) (x : Float) : Option Ordering :=
  if x.isNaN then none
  else if x.isInf then some (if isNegative x then .gt else .lt)
  else
    let (num, den) := (magnitude x).ratio
    let signed : Int := if isNegative x then -(num : Int) else num
    some (compare (n * den) signed)

/-- How one number stands to another; nothing stands to what is not a number. -/
def compareFloat (x y : Float) : Option Ordering :=
  if x < y then some .lt else if x == y then some .eq else if y < x then some .gt else none

end Pseudocode.Number
