import Aggregation.Text.Numeral

/-! Decimal numbers of 128 bits as text: the digits of the coefficient, positionally where the
exponent is not positive and the value not tiny, otherwise with an exponent. -/

namespace Aggregation

/-- The number that bytes spell, least significant first. -/
def littleEndian (bytes : List UInt8) : Nat := bytes.foldr (fun b n => b.toNat + 256 * n) 0

/-- The lowest `count` bytes of a number, least significant first. -/
def littleEndianBytes : Nat → Nat → List UInt8
  | 0, _ => []
  | count + 1, n => UInt8.ofNat n :: littleEndianBytes count (n / 256)

/-- A decimal number as its sixteen bytes, least significant first. -/
structure Decimal128 where
  bytes : List UInt8
  size_eq : bytes.length = 16
  deriving DecidableEq, Repr

namespace Decimal128

def bits (d : Decimal128) : Nat := littleEndian d.bytes

/-- Whether the sign bit is set. -/
def isNegative (d : Decimal128) : Bool := d.bits >>> 127 = 1

/-- The five bits after the sign, which set infinities and NaNs apart. -/
def combination (d : Decimal128) : Nat := (d.bits >>> 122) % 32

/-- Whether the bits stand for no number. -/
def isNaN (d : Decimal128) : Bool := d.combination = 31

def isInfinite (d : Decimal128) : Bool := d.combination = 30

/-- Whether the two bits after the sign are set, which moves the exponent down by two bits. -/
def isShifted (d : Decimal128) : Bool := (d.bits >>> 125) % 4 = 3

def exponent (d : Decimal128) : Int :=
  (if d.isShifted then (d.bits >>> 111) % 0x4000 else (d.bits >>> 113) % 0x4000 : Nat) - 6176

/-- The coefficient of a finite number. Coefficients of the shifted form exceed every canonical one and
count as zero. -/
def coefficient (d : Decimal128) : Nat := if d.isShifted then 0 else d.bits % Nat.pow 2 113

/-- The text of a finite number from its sign, digits and exponent. -/
def write (negative : Bool) (digits : List Char) (exponent : Int) : List Char :=
  let sign := if negative then ['-'] else []
  let adjusted : Int := exponent + digits.length - 1
  if 0 < exponent ∨ adjusted < -6 then
    let mantissa := digits.take 1 ++ if digits.length ≤ 1 then [] else '.' :: digits.drop 1
    let mark := if 0 ≤ adjusted then ['E', '+'] else ['E', '-']
    sign ++ mantissa ++ mark ++ Nat.toDigits 10 adjusted.natAbs
  else if exponent = 0 then sign ++ digits
  else
    let places := (-exponent).toNat
    if places < digits.length then
      sign ++ digits.take (digits.length - places) ++ '.' :: digits.drop (digits.length - places)
    else sign ++ '0' :: '.' :: List.replicate (places - digits.length) '0' ++ digits

def toText (d : Decimal128) : String :=
  if d.isNaN then "NaN"
  else if d.isInfinite then if d.isNegative then "-Infinity" else "Infinity"
  else String.ofList (write d.isNegative (Nat.toDigits 10 d.coefficient) d.exponent)

end Decimal128

end Aggregation
