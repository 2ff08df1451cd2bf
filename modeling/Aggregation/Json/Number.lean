import Aggregation.Json.Basic
import Aggregation.Json.Syntax

/-! The value of a JSON number. An integer that fits 64 bits is an integer; every other number is a float. A
float's digits are gathered into a 64-bit significand, digits that no longer fit are dropped, and the
significand, rounded to a double, is scaled by one power of ten with one more rounding. The result is
therefore near the number but not always the nearest double. -/

namespace Aggregation.Json.Numeral

def maxSignificand : Nat := 0xFFFFFFFFFFFFFFFF

/-- The largest exponent that is computed. -/
def maxExponent : Nat := 0x7FFFFFFF

/-- Appends digits to a significand for as long as it fits; the digits that are left over are returned. -/
def absorb (significand : Nat) : List Char → Nat × List Char
  | [] => (significand, [])
  | c :: rest =>
    let next := 10 * significand + (c.toNat - 48)
    if maxSignificand < next then (significand, c :: rest) else absorb next rest

/-- Scales a magnitude by a power of ten, dividing by the largest power in steps while the exponent is below
it; `none` if the result is too large. A significand is zero after two steps. -/
def scaled? : Nat → Binary64 → Int → Option Binary64
  | 0, x, _ => some x
  | steps + 1, x, exponent =>
    if exponent.natAbs ≤ 308 then
      if 0 ≤ exponent then
        let y := x.times (.powerOfTen exponent.toNat)
        if y.isInfinite then none else some y
      else some (x.dividedBy (.powerOfTen exponent.natAbs))
    else if x.isZero then some x
    else if 0 ≤ exponent then none
    else scaled? steps (x.dividedBy (.powerOfTen 308)) (exponent + 308)

/-- Gives a magnitude its sign. -/
def signed (negative : Bool) (x : Binary64) : Binary64 := if negative then x.negate else x

/-- The sum of two exponents, kept within 32 bits. -/
def clampExponent (e : Int) : Int := max Int32.minValue.toInt (min Int32.maxValue.toInt e)

/-- The float of a significand and the exponent that the dropped and fractional digits leave. -/
def float? (n : Numeral) (significand : Nat) (exponent : Int) : Option Binary64 :=
  let magnitude := Binary64.ofInt significand
  match n.exponent with
  | none => (scaled? 4 magnitude exponent).map (signed n.negative)
  | some (negative, digits) =>
    let given := Aggregation.Numeral.ofDigits digits
    if maxExponent < given then
      if significand ≠ 0 ∧ ¬ negative then none else some (signed n.negative (.ofInt 0))
    else
      let total := clampExponent (if negative then exponent - given else exponent + given)
      (scaled? 4 magnitude total).map (signed n.negative)

/-- The value of a number; `none` if it is too large for a float. -/
def number? (n : Numeral) : Option JsonNumber :=
  let (significand, dropped) := absorb 0 n.whole
  match n.fraction, n.exponent, dropped with
  | none, none, [] =>
    if ¬ n.negative then some (.int significand)
    else if 0 < significand ∧ significand ≤ 0x8000000000000000 then some (.int (-significand))
    else some (.float (signed true (.ofInt significand)))
  | fraction, _, dropped =>
    let digits := fraction.getD []
    let (significand, ignored) := absorb significand digits
    (float? n significand (dropped.length - (digits.length - ignored.length : Nat))).map .float

end Aggregation.Json.Numeral
