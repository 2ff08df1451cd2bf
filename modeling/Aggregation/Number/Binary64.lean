/-! Double-precision numbers as their sixty-four bits. Arithmetic is exact on fractions of naturals, followed
by one rounding to the nearest double, ties to the even neighbour. Bits are kept as they are: a NaN
keeps its payload and zero its sign. -/

namespace Aggregation

/-- A double-precision number. -/
structure Binary64 where
  bits : UInt64
  deriving DecidableEq, Repr, Inhabited

namespace Binary64

/-- Whether the sign bit is set. -/
def isNegative (x : Binary64) : Bool := x.bits >>> 63 = 1

def exponentField (x : Binary64) : Nat := (x.bits >>> 52 &&& 0x7FF).toNat

def fraction (x : Binary64) : Nat := (x.bits &&& 0xFFFFFFFFFFFFF).toNat

/-- Whether the bits stand for no number. -/
def isNaN (x : Binary64) : Bool := x.exponentField = 0x7FF && x.fraction ≠ 0

def isInfinite (x : Binary64) : Bool := x.exponentField = 0x7FF && x.fraction = 0

/-- Whether the number is neither infinite nor a NaN. -/
def isFinite (x : Binary64) : Bool := x.exponentField ≠ 0x7FF

def isZero (x : Binary64) : Bool := x.exponentField = 0 && x.fraction = 0

/-- Equality of numbers: a NaN equals nothing, and the two zeros are equal. -/
def numericEq (x y : Binary64) : Bool :=
  !x.isNaN && !y.isNaN && (x.bits == y.bits || x.isZero && y.isZero)

/-- The NaN of arithmetic: quiet, positive, without a payload. -/
def nan : Binary64 := ⟨0x7FF8000000000000⟩

def infinity (negative : Bool) : Binary64 := ⟨if negative then 0xFFF0000000000000 else 0x7FF0000000000000⟩

/-- The number with the other sign. -/
def negate (x : Binary64) : Binary64 := ⟨x.bits ^^^ 0x8000000000000000⟩

/-- Coefficient of a finite magnitude, which is `coefficient * 2 ^ scale`. -/
def coefficient (x : Binary64) : Nat :=
  if x.exponentField = 0 then x.fraction else 0x10000000000000 + x.fraction

def scale (x : Binary64) : Int := if x.exponentField = 0 then -1074 else x.exponentField - 1075

/-- Numerator of `m * 2 ^ q` with denominator `scaledDenominator q`. -/
def scaledNumerator (m : Nat) (q : Int) : Nat := m * Nat.pow 2 q.toNat

def scaledDenominator (q : Int) : Nat := Nat.pow 2 (-q).toNat

/-- Numerator of a finite magnitude. -/
def numerator (x : Binary64) : Nat := scaledNumerator x.coefficient x.scale

/-- Denominator of a finite magnitude. -/
def denominator (x : Binary64) : Nat := scaledDenominator x.scale

/-- The integer nearest to `num / den`, of two equally near ones the even. -/
def roundHalfEven (num den : Nat) : Nat :=
  let floor := num / den
  let rest := num % den
  if 2 * rest < den then floor
  else if den < 2 * rest then floor + 1
  else floor + floor % 2

/-- The largest `e` with `2 ^ e ≤ num / den`, for a positive fraction. -/
def floorLog2 (num den : Nat) : Int :=
  let guess : Int := num.log2 - den.log2
  if den * Nat.pow 2 guess.toNat ≤ num * Nat.pow 2 (-guess).toNat then guess else guess - 1

/-- Bits of the magnitude nearest to `num / den`; past the largest finite one they are the bits of
infinity. A coefficient that rounds up to the next power of two carries into the exponent by itself. -/
def magnitudeBits (num den : Nat) : Nat :=
  if num = 0 then 0
  else
    let q := max (floorLog2 num den - 52) (-1074)
    let coefficient := roundHalfEven (num * Nat.pow 2 (-q).toNat) (den * Nat.pow 2 q.toNat)
    min ((q + 1074).toNat * 0x10000000000000 + coefficient) 0x7FF0000000000000

/-- The double nearest to a fraction with the given sign. -/
def ofRatio (negative : Bool) (num den : Nat) : Binary64 :=
  ⟨UInt64.ofNat (magnitudeBits num den + if negative then 0x8000000000000000 else 0)⟩

/-- The double nearest to an integer. -/
def ofInt (n : Int) : Binary64 := ofRatio (n < 0) n.natAbs 1

def powerOfTen (n : Nat) : Binary64 := ofRatio false (Nat.pow 10 n) 1

/-- Product of two finite magnitudes. -/
def times (x y : Binary64) : Binary64 :=
  ofRatio false (x.numerator * y.numerator) (x.denominator * y.denominator)

/-- Quotient of two finite magnitudes, the second not zero. -/
def dividedBy (x y : Binary64) : Binary64 :=
  ofRatio false (x.numerator * y.denominator) (x.denominator * y.numerator)

/-- The double nearest to `digits * 10 ^ exponent`. Far outside the range of doubles the power is not
computed: a decimal with more than three hundred and ten digits before the point is infinite, and one that
starts more than three hundred and thirty places after it is zero. -/
def ofDecimal (negative : Bool) (digits : Nat) (exponent : Int) : Binary64 :=
  if digits = 0 then ofRatio negative 0 1
  else
    let length : Int := (Nat.toDigits 10 digits).length
    if 310 < length + exponent then infinity negative
    else if length + exponent < -330 then ofRatio negative 0 1
    else ofRatio negative (digits * Nat.pow 10 exponent.toNat) (Nat.pow 10 (-exponent).toNat)

end Binary64

end Aggregation
