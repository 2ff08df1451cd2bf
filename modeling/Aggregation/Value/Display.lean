import Aggregation.Value.Basic
import Aggregation.Number.Shortest
import Aggregation.Text.Quoted

/-! Values as diagnostic text: the kind of the value and, in parentheses, what it holds. -/

namespace Aggregation.Value

/-- Of two equally near decimals the larger in magnitude is written; doubles are positional from 0.0001 up to
10 ^ 16, and exponents carry no plus. -/
def doubleLayout : Shortest.Layout := ⟨.up, -4, 16, false⟩

/-- A double, with a word for each number that is not finite. -/
def describeDouble (x : Binary64) : String :=
  if x.isNaN then "NaN"
  else if x.isInfinite then if x.isNegative then "-inf" else "inf"
  else doubleLayout.writeFinite x

/-- The bytes as decimal numbers in brackets. -/
def describeBytes (bytes : List UInt8) : String :=
  "[" ++ ", ".intercalate (bytes.map fun b => toString b.toNat) ++ "]"

def describeObjectId (id : ObjectId) : String := "ObjectId(" ++ describeBytes id.bytes ++ ")"

mutual

/-- The diagnostic text of a value. -/
def describe : Value → String
  | .double x => "Double(" ++ describeDouble x ++ ")"
  | .string s => "String(" ++ Quoted.quote s ++ ")"
  | .document ⟨fields⟩ => "Document(" ++ describeDocument fields ++ ")"
  | .array items => "Array([" ++ describeItems items ++ "])"
  | .binary subtype bytes =>
    "Binary(Binary \x7b subtype: " ++ toString subtype.toNat ++ ", bytes: " ++ describeBytes bytes ++ " \x7d)"
  | .undefined => "Undefined"
  | .objectId id => "ObjectId(" ++ describeObjectId id ++ ")"
  | .boolean b => "Boolean(" ++ toString b ++ ")"
  | .dateTime millis => "DateTime(" ++ toString millis.toInt ++ ")"
  | .null => "Null"
  | .regularExpression pattern options =>
    "RegularExpression(Regex \x7b pattern: " ++ Quoted.quote pattern ++ ", options: " ++ Quoted.quote options ++
      " \x7d)"
  | .dbPointer collection id =>
    "DbPointer(DbPointer \x7b namespace: " ++ Quoted.quote collection ++ ", id: " ++ describeObjectId id ++ " \x7d)"
  | .javaScript code => "JavaScript(" ++ Quoted.quote code ++ ")"
  | .symbol name => "Symbol(" ++ Quoted.quote name ++ ")"
  | .scopedCode code ⟨fields⟩ =>
    "JavaScriptWithScope(JavaScriptWithScope \x7b code: " ++ Quoted.quote code ++ ", scope: " ++
      describeDocument fields ++ " \x7d)"
  | .int32 n => "Int32(" ++ toString n.toInt ++ ")"
  | .timestamp time increment =>
    "Timestamp(Timestamp \x7b time: " ++ toString time.toNat ++ ", increment: " ++ toString increment.toNat ++ " \x7d)"
  | .int64 n => "Int64(" ++ toString n.toInt ++ ")"
  | .decimal128 d => "Decimal128(Decimal128(" ++ describeBytes d.bytes ++ "))"
  | .minKey => "MinKey"
  | .maxKey => "MaxKey"

def describeDocument : List (String × Value) → String
  | [] => "Document \x7b entries: \x7b\x7d \x7d"
  | (key, value) :: rest =>
    "Document \x7b entries: \x7b" ++ Quoted.quote key ++ ": " ++ describe value ++ describeRest rest ++ "\x7d \x7d"

/-- The entries after the first. -/
def describeRest : List (String × Value) → String
  | [] => ""
  | (key, value) :: rest => ", " ++ Quoted.quote key ++ ": " ++ describe value ++ describeRest rest

/-- The items, separated by commas. -/
def describeItems : List Value → String
  | [] => ""
  | [item] => describe item
  | item :: rest => describe item ++ ", " ++ describeItems rest

end

end Aggregation.Value
