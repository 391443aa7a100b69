-- The fewest decimal digits that read back as a number. All decimals closer to the number than to
-- any other form an interval; `shortest` takes the coarsest decimal grid with a point in it, and of
-- the points of that grid the one nearest to the number.
import DataBinding.Number.Basic

namespace DataBinding.Number

/-! ## The interval of decimals that round to a number -/

/-- Where a value that lies exactly between two shortest decimals goes. -/
inductive Tie where
  | up
  | toEven
deriving DecidableEq, Repr

/-- A positive finite number and the bounds of the decimals that round to it, all three over one
denominator. The bounds themselves round to it if the significand is even. -/
structure Interval where
  value : Nat
  lower : Nat
  upper : Nat
  den : Nat
  closed : Bool

/-- The interval of `m * 2 ^ q`. Below a power of two the next number is only half as far away. -/
def interval (m : Nat) (q : Int) : Interval :=
  let below := if m = 1 <<< 52 && q > -1074 then 1 else 2
  let (scale, den) := match q with
    | .ofNat e => (1 <<< e, 4)
    | .negSucc e => (1, 4 <<< (e + 1))
  { value := 4 * m * scale, lower := (4 * m - below) * scale, upper := (4 * m + 2) * scale,
    den, closed := m % 2 = 0 }

/-- Whether the decimal `num / den` lies in the interval. -/
def Interval.holds (i : Interval) (num den : Nat) : Bool :=
  if i.closed then i.lower * den ≤ num * i.den && num * i.den ≤ i.upper * den
  else i.lower * den < num * i.den && num * i.den < i.upper * den

/-! ## Decimal grids -/

/-- A decimal `digits * 10 ^ exponent`. -/
structure Decimal where
  digits : Nat
  exponent : Int
deriving DecidableEq, Repr

/-- The greatest `e` with `10 ^ e ≤ num / den`, found from the number of digits. -/
def floorLog10 (num den : Nat) : Int :=
  let length (n : Nat) : Int := (Nat.toDigits 10 n).length
  let guess := length num - length den
  let fits : Bool := match guess with
    | .ofNat e => den * Nat.pow 10 e ≤ num
    | .negSucc e => den ≤ num * Nat.pow 10 (e + 1)
  if fits then guess else guess - 1

/-- The point of the grid `10 ^ exponent` that stands for the value, if one lies in the interval:
of the two neighbours of the value the nearer one that does. -/
def onDecimalGrid? (tie : Tie) (i : Interval) (exponent : Int) : Option Decimal :=
  let (up, down) := match exponent with
    | .ofNat e => (Nat.pow 10 e, 1)
    | .negSucc e => (1, Nat.pow 10 (e + 1))
  -- a grid point `k` is the decimal `k * up / down`
  let num := i.value * down
  let den := i.den * up
  let floor := num / den
  let twice := 2 * (num % den)
  let holds (k : Nat) : Bool := i.holds (k * up) down
  let nearer := if twice > den then floor + 1
    else if twice < den then floor
    else match tie with
      | .up => floor + 1
      | .toEven => if floor % 2 = 0 then floor else floor + 1
  let farther := 2 * floor + 1 - nearer
  if holds nearer then some ⟨nearer, exponent⟩
  else if holds farther then some ⟨farther, exponent⟩
  else none

/-- The same decimal without zeros at the end of its digits; at most `fuel` are dropped. -/
def Decimal.dropZeros : Nat → Decimal → Decimal
  | 0, d => d
  | fuel + 1, d =>
    if d.digits ≠ 0 && d.digits % 10 = 0 then dropZeros fuel ⟨d.digits / 10, d.exponent + 1⟩ else d

/-- The decimal with the fewest digits that rounds to a positive finite number, and of those the
nearest. Seventeen digits always suffice. -/
def shortest (tie : Tie) (n : Number) : Decimal :=
  let i := interval n.significand n.exponent
  let top := floorLog10 i.value i.den
  let found := (List.range 17).findSome? fun (places : Nat) => onDecimalGrid? tie i (top - places)
  (found.getD ⟨0, 0⟩).dropZeros 17

end DataBinding.Number
