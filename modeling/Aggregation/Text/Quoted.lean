import Aggregation.Text.Hex
import Aggregation.Text.Printable

/-! Quoted text for people: printable characters stand for themselves, the rest is escaped. -/

namespace Aggregation.Quoted

def escape (c : Char) : List Char :=
  match c with
  | '"' => ['\\', '"']
  | '\\' => ['\\', '\\']
  | '\n' => ['\\', 'n']
  | '\r' => ['\\', 'r']
  | '\t' => ['\\', 't']
  | '\x00' => ['\\', '0']
  | c =>
    if isPrintable c then [c]
    else ['\\', 'u', '\x7b'] ++ (Hex.padded 1 c.toNat).toList ++ ['\x7d']

def quote (text : String) : String := "\"" ++ String.ofList (text.toList.flatMap escape) ++ "\""

end Aggregation.Quoted
