-- Numbers: the 64-bit binary numbers of IEEE 754. A finite number is `significand * 2 ^ exponent`
-- with its sign; all questions about it (is it integral, which integer is it, which of two comes
-- first) are answered in exact arithmetic on these parts.

namespace DataBinding

/-- A 64-bit binary number, given by its bits: sign, 11 exponent bits, 52 fraction bits. -/
structure Number where
  bits : UInt64
deriving DecidableEq, Repr

namespace Number

/-! ## The parts of a number -/

def negative (n : Number) : Bool := n.bits.toNat >>> 63 = 1

def exponentField (n : Number) : Nat := (n.bits.toNat >>> 52) % 2048

def fraction (n : Number) : Nat := n.bits.toNat % (1 <<< 52)

def isNaN (n : Number) : Bool := n.exponentField = 2047 && n.fraction ≠ 0

def isInfinite (n : Number) : Bool := n.exponentField = 2047 && n.fraction = 0

def isFinite (n : Number) : Bool := n.exponentField ≠ 2047

def isZero (n : Number) : Bool := n.bits.toNat % (1 <<< 63) = 0

/-- The significand of a finite number; a subnormal number has no leading one. -/
def significand (n : Number) : Nat :=
  if n.exponentField = 0 then n.fraction else (1 <<< 52) + n.fraction

/-- The exponent of a finite number: its magnitude is `significand * 2 ^ exponent`. -/
def exponent (n : Number) : Int :=
  if n.exponentField = 0 then -1074 else n.exponentField - 1075

/-! ## Special numbers -/

def zero : Number := ⟨0⟩

def nan : Number := ⟨0x7FF8000000000000⟩

/-- The number of the given sign whose other 63 bits are `magnitude`. -/
def ofMagnitude (negative : Bool) (magnitude : Nat) : Number :=
  ⟨UInt64.ofNat (magnitude % (1 <<< 63) + if negative then 1 <<< 63 else 0)⟩

def infinity (negative : Bool) : Number := ofMagnitude negative (2047 <<< 52)

/-! ## Exact value -/

/-- The integer that a number is; none for a number with a fraction, an infinity or a NaN. -/
def toInt? (n : Number) : Option Int :=
  if !n.isFinite then none
  else
    let signed (k : Nat) : Int := if n.negative then -k else k
    match n.exponent with
    | .ofNat e => some (signed (n.significand <<< e))
    | .negSucc e =>
      if n.significand % (1 <<< (e + 1)) = 0 then some (signed (n.significand >>> (e + 1))) else none

/-! ## Comparison -/

/-- Equality of values: a NaN differs from every number, and the two zeros are equal. -/
def sameValue (a b : Number) : Bool :=
  !a.isNaN && !b.isNaN && (a.bits = b.bits || a.isZero && b.isZero)

/-- The place of a number in the total order of all bit patterns: negative NaNs, negative numbers
from minus infinity to minus zero, then plus zero to plus infinity and the other NaNs. -/
def rank (n : Number) : Nat :=
  if n.negative then (1 <<< 64) - 1 - n.bits.toNat else (1 <<< 63) + n.bits.toNat

end Number

end DataBinding
