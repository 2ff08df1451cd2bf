/-! Decimal integers as text: an optional sign, then at least one digit, and nothing else. -/

namespace Aggregation.Numeral

def isDigit (c : Char) : Bool := '0' ≤ c && c ≤ '9'

/-- The number that a list of digits spells, most significant first. -/
def ofDigits (digits : List Char) : Nat := digits.foldl (fun n c => 10 * n + (c.toNat - 48)) 0

def natural? (digits : List Char) : Option Nat :=
  if digits.isEmpty || !digits.all isDigit then none else some (ofDigits digits)

def integer? : List Char → Option Int
  | '+' :: digits => (natural? digits).map Int.ofNat
  | '-' :: digits => (natural? digits).map fun n => -(Int.ofNat n)
  | digits => (natural? digits).map Int.ofNat

/-- An integer that fits 32 bits. -/
def int32? (text : String) : Option Int32 := do
  let n ← integer? text.toList
  if Int32.minValue.toInt ≤ n ∧ n ≤ Int32.maxValue.toInt then some (Int32.ofInt n) else none

/-- An integer that fits 64 bits. -/
def int64? (text : String) : Option Int64 := do
  let n ← integer? text.toList
  if Int64.minValue.toInt ≤ n ∧ n ≤ Int64.maxValue.toInt then some (Int64.ofInt n) else none

end Aggregation.Numeral
