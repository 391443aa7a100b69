-- Reading a number from decimal text: a sign, digits with an optional point, an optional exponent;
-- or one of the names of the infinities and of NaN.
import DataBinding.Number.Rounding
import DataBinding.Text.Search

namespace DataBinding.Number

/-! ## Parts of a decimal -/

/-- The sign in front of a text and the rest. -/
def cutSign : List Char → Bool × List Char
  | '-' :: rest => (true, rest)
  | '+' :: rest => (false, rest)
  | cs => (false, cs)

/-- The exponent after its mark: a sign and at least one digit. -/
def exponent? (cs : List Char) : Option Int :=
  let (negative, digits) := cutSign cs
  if digits.isEmpty then none
  else (Text.digitsValue? digits).map fun n => if negative then -(n : Int) else n

/-- An unsigned decimal as its digits and the power of ten of the last one. -/
def decimal? (cs : List Char) : Option (Nat × Int) := do
  let whole := cs.takeWhile Char.isDigit
  let afterWhole := cs.dropWhile Char.isDigit
  let (places, afterPoint) := match afterWhole with
    | '.' :: rest => (rest.takeWhile Char.isDigit, rest.dropWhile Char.isDigit)
    | rest => ([], rest)
  let exponent ← match afterPoint with
    | [] => some 0
    | 'e' :: rest => exponent? rest
    | 'E' :: rest => exponent? rest
    | _ => none
  if whole.isEmpty && places.isEmpty then none
  else
    let digits ← Text.digitsValue? (whole ++ places)
    return (digits, exponent - places.length)

/-! ## Numbers -/

/-- The number that a text writes. -/
def ofText? (s : String) : Option Number :=
  let (negative, body) := cutSign s.toList
  let name := (String.ofList body).toLower
  if name = "nan" then some (if negative then ofMagnitude true nan.bits.toNat else nan)
  else if name = "infinity" || name = "inf" then some (infinity negative)
  else (decimal? body).map fun (digits, exponent) => ofDecimal negative digits exponent

end DataBinding.Number
