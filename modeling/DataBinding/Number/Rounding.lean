-- Rounding to a number. `ofRatio` gives the number nearest to a quotient, a tie going to the even
-- significand; integers, decimals and exact sums are quotients, so each is rounded once.
import DataBinding.Number.Basic

namespace DataBinding.Number

/-! ## Quotients -/

/-- The integer nearest to `num / den`; a half goes to the even neighbour. -/
def nearestEven (num den : Nat) : Nat :=
  let quotient := num / den
  let twice := 2 * (num % den)
  if twice > den || (twice = den && quotient % 2 = 1) then quotient + 1 else quotient

/-- The greatest `e` with `2 ^ e ≤ num / den`, for positive `num` and `den`. -/
def floorLog2 (num den : Nat) : Int :=
  let guess : Int := (num.log2 : Int) - den.log2
  let fits : Bool := match guess with
    | .ofNat e => den <<< e ≤ num
    | .negSucc e => den ≤ num <<< (e + 1)
  if fits then guess else guess - 1

/-- The number nearest to `num / den`. With the unit `2 ^ q` in the last place, `q` being at least
-1074, the rounded significand `m` gives the bits `(q + 1074) * 2 ^ 52 + m`, also where rounding
carries into the next power of two. -/
def ofRatio (negative : Bool) (num den : Nat) : Number :=
  if num = 0 then ofMagnitude negative 0
  else
    let q := max (floorLog2 num den - 52) (-1074)
    let m := match q with
      | .ofNat e => nearestEven num (den <<< e)
      | .negSucc e => nearestEven (num <<< (e + 1)) den
    let magnitude := ((q + 1074).toNat <<< 52) + m
    if magnitude ≥ 2047 <<< 52 then infinity negative else ofMagnitude negative magnitude

/-! ## Integers and decimals -/

def ofInt (i : Int) : Number := ofRatio (i < 0) i.natAbs 1

/-- The number nearest to `digits * 10 ^ exponent`. Exponents far outside the range are answered
at once: above 10 ^ 309 everything overflows, and `3 * exponent + log2 digits` below -1076 means
less than half of the least positive number. -/
def ofDecimal (negative : Bool) (digits : Nat) (exponent : Int) : Number :=
  if digits = 0 then ofMagnitude negative 0
  else if exponent > 309 then infinity negative
  else if 3 * exponent + digits.log2 + 1 < -1076 then ofMagnitude negative 0
  else match exponent with
    | .ofNat e => ofRatio negative (digits * Nat.pow 10 e) 1
    | .negSucc e => ofRatio negative digits (Nat.pow 10 (e + 1))

/-! ## Sums -/

/-- The significand with its sign, on the grid of `2 ^ unit`, for a unit not above the exponent. -/
def onGrid (n : Number) (unit : Int) : Int :=
  let scaled : Int := n.significand <<< (n.exponent - unit).toNat
  if n.negative then -scaled else scaled

/-- The exact sum, rounded once. A sum of two negative zeros is negative zero; every other sum of
value zero is plus zero. -/
def add (a b : Number) : Number :=
  if a.isNaN || b.isNaN then nan
  else if a.isInfinite then
    if b.isInfinite && a.negative != b.negative then nan else a
  else if b.isInfinite then b
  else
    let unit := min a.exponent b.exponent
    let sum := a.onGrid unit + b.onGrid unit
    let negative := if sum = 0 then a.negative && b.negative else decide (sum < 0)
    match unit with
    | .ofNat e => ofRatio negative (sum.natAbs <<< e) 1
    | .negSucc e => ofRatio negative sum.natAbs (1 <<< (e + 1))

end DataBinding.Number
