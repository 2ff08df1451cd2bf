/-! Hexadecimal text in lower case. -/

namespace Aggregation.Hex

/-- The digit of a number below sixteen. -/
def digit (n : Nat) : Char := if n < 10 then Char.ofNat (48 + n) else Char.ofNat (87 + n)

/-- The number of a digit in either case. -/
def value? (c : Char) : Option Nat :=
  if '0' ≤ c ∧ c ≤ '9' then some (c.toNat - 48)
  else if 'a' ≤ c ∧ c ≤ 'f' then some (c.toNat - 87)
  else if 'A' ≤ c ∧ c ≤ 'F' then some (c.toNat - 55)
  else none

def ofByte (b : UInt8) : List Char := [digit (b.toNat / 16), digit (b.toNat % 16)]

/-- Two digits for each byte. -/
def encode (bytes : List UInt8) : String := String.ofList (bytes.flatMap ofByte)

/-- The bytes of an even number of digits. -/
def decodeDigits : List Char → Option (List UInt8)
  | [] => some []
  | [_] => none
  | a :: b :: rest => do
    let high ← value? a
    let low ← value? b
    let bytes ← decodeDigits rest
    return UInt8.ofNat (16 * high + low) :: bytes

/-- The bytes that a text of digit pairs spells. -/
def decode? (text : String) : Option (List UInt8) := decodeDigits text.toList

def padded (width n : Nat) : String :=
  let digits := Nat.toDigits 16 n
  String.ofList (List.replicate (width - digits.length) '0' ++ digits)

/-- A number that is written with an optional plus sign and at least one digit. -/
def natural? : List Char → Option Nat
  | '+' :: digits => digitsValue? digits
  | digits => digitsValue? digits
where
  /-- The number of a non-empty list of digits. -/
  digitsValue? : List Char → Option Nat
    | [] => none
    | digits => digits.foldlM (fun n c => (value? c).map (16 * n + ·)) 0

/-- A byte that is written with an optional plus sign and at least one digit. -/
def byte? (digits : List Char) : Option UInt8 := do
  let n ← natural? digits
  if n < 256 then some (UInt8.ofNat n) else none

end Aggregation.Hex
