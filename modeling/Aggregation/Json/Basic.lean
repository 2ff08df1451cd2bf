import Aggregation.Record
import Aggregation.Number.Binary64

/-! JSON values. Integers and floats are different numbers, as they are written differently; objects remember
the order of their members. -/

namespace Aggregation

inductive JsonNumber where
  | int (n : Int)
  | float (x : Binary64)
  deriving DecidableEq, Repr, Inhabited

inductive Json where
  | null
  | bool (b : Bool)
  | number (n : JsonNumber)
  | string (s : String)
  | array (items : List Json)
  | object (members : Record Json)
  deriving Repr, Inhabited

namespace Json

def ofMembers (members : List (String × Json)) : Json := .object ⟨members⟩

/-- An integer. -/
def int (n : Int) : Json := .number (.int n)

/-- A member of an object; `null` if there is none or the value is no object. -/
def member (j : Json) (key : String) : Json :=
  match j with
  | .object members => (members.get? key).getD .null
  | _ => .null

def text? : Json → Option String
  | .string s => some s
  | _ => none

/-- The value of an integer. -/
def int? : Json → Option Int
  | .number (.int n) => some n
  | _ => none

end Json

end Aggregation
