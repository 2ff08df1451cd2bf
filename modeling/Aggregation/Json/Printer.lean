import Aggregation.Json.Basic
import Aggregation.Number.Shortest
import Aggregation.Text.Hex

/-! JSON values as compact text: no blanks, members in order, text outside ASCII as it is. -/

namespace Aggregation.Json

/-- Of two equally near decimals the even one is written; floats are positional from 0.00001 up to 10 ^ 16, and a
positive exponent carries a plus. -/
def floatLayout : Shortest.Layout := ⟨.toEven, -5, 16, true⟩

/-- A number; a float that is not finite has no JSON form and is written as `null`. -/
def numberText : JsonNumber → String
  | .int n => toString n
  | .float x => if x.isFinite then floatLayout.writeFinite x else "null"

/-- One character inside a string literal. -/
def escape (c : Char) : List Char :=
  match c with
  | '"' => ['\\', '"']
  | '\\' => ['\\', '\\']
  | '\x08' => ['\\', 'b']
  | '\x0c' => ['\\', 'f']
  | '\n' => ['\\', 'n']
  | '\r' => ['\\', 'r']
  | '\t' => ['\\', 't']
  | c => if c.toNat < 0x20 then '\\' :: 'u' :: (Hex.padded 4 c.toNat).toList else [c]

def literal (s : String) : List Char := '"' :: s.toList.flatMap escape ++ ['"']

mutual

/-- The compact text of a value. -/
def render : Json → List Char
  | .null => ['n', 'u', 'l', 'l']
  | .bool true => ['t', 'r', 'u', 'e']
  | .bool false => ['f', 'a', 'l', 's', 'e']
  | .number n => (numberText n).toList
  | .string s => literal s
  | .array [] => ['[', ']']
  | .array (item :: rest) => '[' :: item.render ++ renderItems rest
  | .object ⟨[]⟩ => ['\x7b', '\x7d']
  | .object ⟨(key, value) :: rest⟩ => '\x7b' :: literal key ++ ':' :: value.render ++ renderMembers rest

/-- The items after the first one, and the closing bracket. -/
def renderItems : List Json → List Char
  | [] => [']']
  | item :: rest => ',' :: item.render ++ renderItems rest

/-- The members after the first one, and the closing brace. -/
def renderMembers : List (String × Json) → List Char
  | [] => ['\x7d']
  | (key, value) :: rest => ',' :: literal key ++ ':' :: value.render ++ renderMembers rest

end

def compact (j : Json) : String := String.ofList j.render

end Aggregation.Json
