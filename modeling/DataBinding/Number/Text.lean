-- Texts of numbers. Plain text never has an exponent; document text and descriptive text share one
-- layout of the shortest digits and differ in a `Layout` record.
import DataBinding.Number.Shortest

namespace DataBinding.Number

/-! ## Digits -/

def digitsText (n : Nat) : String := String.ofList (Nat.toDigits 10 n)

def intText (i : Int) : String :=
  if i < 0 then "-" ++ digitsText i.natAbs else digitsText i.natAbs

def zeros (count : Nat) : String := String.ofList (List.replicate count '0')

/-- A decimal without an exponent mark. -/
def Decimal.positional (d : Decimal) : String :=
  let digits := Nat.toDigits 10 d.digits
  match d.exponent with
  | .ofNat e => String.ofList digits ++ zeros e
  | .negSucc e =>
    let places := e + 1
    if digits.length > places then
      String.ofList (digits.take (digits.length - places)) ++ "." ++
        String.ofList (digits.drop (digits.length - places))
    else "0." ++ zeros (places - digits.length) ++ String.ofList digits

/-- The power of ten of the leading digit. -/
def Decimal.magnitude (d : Decimal) : Int := (Nat.toDigits 10 d.digits).length - 1 + d.exponent

/-- A decimal with one digit before the point and an exponent mark. -/
def Decimal.scientific (plus : Bool) (d : Decimal) : String :=
  let mantissa := match Nat.toDigits 10 d.digits with
    | [] => ""
    | [c] => String.ofList [c]
    | c :: rest => String.ofList (c :: '.' :: rest)
  let sign := if plus && d.magnitude ≥ 0 then "+" else ""
  mantissa ++ "e" ++ sign ++ intText d.magnitude

/-! ## Plain text -/

def signText (n : Number) : String := if n.negative then "-" else ""

/-- The plain text of a number: an integral number in full, every other finite number by its
shortest digits. -/
def plainText (n : Number) : String :=
  if n.isNaN then "NaN"
  else if n.isInfinite then n.signText ++ "Infinity"
  else match n.toInt? with
    | some i => n.signText ++ digitsText i.natAbs
    | none => n.signText ++ (n.shortest .up).positional

/-! ## Texts with an exponent -/

/-- How a text with at least one fraction digit or an exponent is laid out: the powers of ten of
the leading digit that are written without an exponent, whether an exponent shows a plus sign, and
where ties between shortest decimals go. -/
structure Layout where
  least : Int
  greatest : Int
  plus : Bool
  tie : Tie

/-- Documents write from 0.00001 up to below 10 ^ 16 without an exponent. -/
def documentLayout : Layout := ⟨-5, 15, true, .toEven⟩

/-- Descriptions write from 0.0001 up to below 10 ^ 16 without an exponent. -/
def descriptionLayout : Layout := ⟨-4, 15, false, .up⟩

/-- The text of a finite number in a layout. -/
def laidOut (layout : Layout) (n : Number) : String :=
  if n.isZero then n.signText ++ "0.0"
  else
    let d := n.shortest layout.tie
    if layout.least ≤ d.magnitude && d.magnitude ≤ layout.greatest then
      n.signText ++ d.positional ++ (if d.exponent ≥ 0 then ".0" else "")
    else n.signText ++ d.scientific layout.plus

def documentText (n : Number) : String := n.laidOut documentLayout

def descriptionText (n : Number) : String :=
  if n.isNaN then "NaN"
  else if n.isInfinite then n.signText ++ "inf"
  else n.laidOut descriptionLayout

end DataBinding.Number
