import Aggregation.Number.Binary64

/-! Doubles as decimal text. The digits are the fewest that read back as the same double and, among
those, the nearest to its exact value. A layout says which of two equally near decimals is written, and
when the digits are positional. -/

namespace Aggregation.Shortest

structure Decimal where
  digits : Nat
  exponent : Int
  deriving DecidableEq, Repr

/-- The reals that round to a positive double, as fractions over one denominator: the ends of the
interval, the double itself, and whether the ends belong to it. -/
structure Interval where
  low : Nat
  value : Nat
  high : Nat
  denominator : Nat
  closed : Bool

/-- The interval of a positive double. The gap below a power of two is half the gap above it, except
at the smallest exponent; the ends round to the double exactly if its coefficient is even. -/
def interval (x : Binary64) : Interval :=
  let m := x.coefficient
  let q := x.scale - 2
  let below := if m = 0x10000000000000 ∧ x.exponentField ≠ 1 then 1 else 2
  { low := Binary64.scaledNumerator (4 * m - below) q
    value := Binary64.scaledNumerator (4 * m) q
    high := Binary64.scaledNumerator (4 * m + 2) q
    denominator := Binary64.scaledDenominator q
    closed := m % 2 = 0 }

def Interval.contains (i : Interval) (num den : Nat) : Bool :=
  let scaled := num * i.denominator
  if i.closed then i.low * den ≤ scaled && scaled ≤ i.high * den
  else i.low * den < scaled && scaled < i.high * den

/-- The largest `e` with `10 ^ e ≤ num / den`, for a positive fraction. -/
def floorLog10 (num den : Nat) : Int :=
  if den ≤ num then (Nat.toDigits 10 (num / den)).length - 1
  else -(Nat.toDigits 10 ((den - 1) / num)).length

def Decimal.ratio (d : Decimal) : Nat × Nat :=
  (d.digits * Nat.pow 10 d.exponent.toNat, Nat.pow 10 (-d.exponent).toNat)

/-- Whether a decimal reads back as the double of an interval. -/
def Interval.holds (i : Interval) (d : Decimal) : Bool := i.contains d.ratio.1 d.ratio.2

/-- Which of two equally near neighbours on a decimal grid stands for a value: the one with even digits, or
the larger one. -/
inductive Tie where
  | toEven
  | up
  deriving DecidableEq, Repr

/-- Whether the lower neighbour stands for a value, given the digits of this neighbour and the part of the
grid step, `rest / den`, by which the value exceeds it. -/
def Tie.takesLower (tie : Tie) (floor rest den : Nat) : Bool :=
  2 * rest < den || 2 * rest == den && tie == .toEven && floor % 2 == 0

/-- The better of the two neighbours of the value on the grid of multiples of `10 ^ exponent`, if one
reads back: the nearer, or the one that the tie rule takes if both are equally near. -/
def onGrid? (tie : Tie) (i : Interval) (exponent : Int) : Option Decimal :=
  let num := i.value * Nat.pow 10 (-exponent).toNat
  let den := i.denominator * Nat.pow 10 exponent.toNat
  let floor := num / den
  let lower : Decimal := ⟨floor, exponent⟩
  let upper : Decimal := ⟨floor + 1, exponent⟩
  match i.holds lower, i.holds upper with
  | true, true => if tie.takesLower floor (num % den) den then some lower else some upper
  | true, false => some lower
  | false, true => some upper
  | false, false => none

/-- Tries grids from coarse to fine. -/
def search (tie : Tie) (i : Interval) : Nat → Int → Decimal
  | 0, exponent =>
    ⟨i.value * Nat.pow 10 (-exponent).toNat / (i.denominator * Nat.pow 10 exponent.toNat), exponent⟩
  | more + 1, exponent => (onGrid? tie i exponent).getD (search tie i more (exponent - 1))

/-- Removes trailing zeros, at most `fuel` of them. -/
def normalize : Nat → Decimal → Decimal
  | 0, d => d
  | fuel + 1, d => if d.digits % 10 = 0 ∧ d.digits ≠ 0 then normalize fuel ⟨d.digits / 10, d.exponent + 1⟩ else d

/-- The shortest decimal of a positive double; seventeen digits always suffice. -/
def ofPositive (tie : Tie) (x : Binary64) : Decimal :=
  let i := interval x
  normalize 20 (search tie i 17 (floorLog10 i.value i.denominator))

/-- Which decimal stands for a double, when it is positional and how its exponent looks. -/
structure Layout where
  /-- Which of two equally near decimals is written. -/
  tie : Tie
  /-- The least exponent of the leading digit that is still written positionally. -/
  least : Int
  /-- The first exponent of the leading digit that is no longer written positionally. -/
  limit : Int
  /-- Whether a positive exponent carries a plus sign. -/
  plus : Bool

/-- Writes a decimal: with a point and at least one digit on either side of it, or as a leading digit, the
other digits if any, and an exponent. -/
def Layout.write (layout : Layout) (d : Decimal) : List Char :=
  let digits := Nat.toDigits 10 d.digits
  let leading : Int := d.exponent + digits.length - 1
  if layout.least ≤ leading ∧ leading < layout.limit then
    if 0 ≤ d.exponent then digits ++ List.replicate d.exponent.toNat '0' ++ ['.', '0']
    else
      let places := (-d.exponent).toNat
      if places < digits.length then
        digits.take (digits.length - places) ++ '.' :: digits.drop (digits.length - places)
      else '0' :: '.' :: List.replicate (places - digits.length) '0' ++ digits
  else
    let mantissa := digits.take 1 ++ if digits.length ≤ 1 then [] else '.' :: digits.drop 1
    let sign := if leading < 0 then ['-'] else if layout.plus then ['+'] else []
    mantissa ++ 'e' :: sign ++ Nat.toDigits 10 leading.natAbs

def Layout.writeFinite (layout : Layout) (x : Binary64) : String :=
  let sign := if x.isNegative then ['-'] else []
  let magnitude := if x.isZero then ['0', '.', '0'] else layout.write (ofPositive layout.tie x)
  String.ofList (sign ++ magnitude)

end Aggregation.Shortest
