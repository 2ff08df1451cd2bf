import Aggregation.Number.Binary64
import Aggregation.Text.Numeral

/-! Doubles from decimal text. A sign may stand first; then comes a name of an infinity or a NaN in any
case, or digits with at most one point among or around them and an optional exponent. Decimals are
rounded correctly, and a value past the largest double is infinite. -/

namespace Aggregation.Binary64

/-- The lower-case form of an ASCII letter. -/
def lowerAscii (c : Char) : Char := if 'A' ≤ c ∧ c ≤ 'Z' then Char.ofNat (c.toNat + 32) else c

/-- The exponent after its mark: an optional sign and at least one digit. -/
def exponentValue? (text : List Char) : Option Int := Numeral.integer? text

/-- A decimal without its sign. -/
def decimal? (negative : Bool) (text : List Char) : Option Binary64 :=
  let (whole, rest) := text.span Numeral.isDigit
  let (fraction, rest) :=
    match rest with
    | '.' :: rest => rest.span Numeral.isDigit
    | rest => ([], rest)
  if whole.isEmpty && fraction.isEmpty then none
  else
    let digits := Numeral.ofDigits (whole ++ fraction)
    match rest with
    | [] => some (ofDecimal negative digits (-fraction.length))
    | mark :: rest =>
      if mark = 'e' ∨ mark = 'E' then
        (exponentValue? rest).map fun e => ofDecimal negative digits (e - fraction.length)
      else none

/-- A number without its sign. -/
def unsigned? (negative : Bool) (text : List Char) : Option Binary64 :=
  let name := String.ofList (text.map lowerAscii)
  if name = "inf" ∨ name = "infinity" then some (infinity negative)
  else if name = "nan" then some (if negative then nan.negate else nan)
  else decimal? negative text

/-- The double that a text spells. -/
def ofText? (text : String) : Option Binary64 :=
  match text.toList with
  | '-' :: rest => unsigned? true rest
  | '+' :: rest => unsigned? false rest
  | rest => unsigned? false rest

end Aggregation.Binary64
