import Aggregation.ExtendedJson.Fault
import Aggregation.Number.Reading
import Aggregation.Text.Base64
import Aggregation.Value.Basic

/-! Values as JSON. What JSON can carry is written plainly: integers of both widths, finite doubles, strings,
booleans, null, arrays and documents. Every other kind is an object of one reserved member, its wrapper. A
reader takes the least integer width that fits, and an object that is no wrapper is a document. -/

namespace Aggregation.ExtendedJson

def wrap (key : String) (j : Json) : Json := .object (.single key j)

def ofDouble (x : Binary64) : Json :=
  if x.isFinite then .number (.float x)
  else wrap "$numberDouble"
    (.string (if x.isNaN then "NaN" else if x.isNegative then "-Infinity" else "Infinity"))

mutual

def ofValue : Value → Json
  | .double x => ofDouble x
  | .string s => .string s
  | .document ⟨fields⟩ => .object ⟨ofEntries fields⟩
  | .array items => .array (ofItems items)
  | .binary subtype bytes =>
    wrap "$binary" (.ofMembers
      [("base64", .string (Base64.encode bytes)), ("subType", .string (Hex.padded 2 subtype.toNat))])
  | .undefined => wrap "$undefined" (.bool true)
  | .objectId id => wrap "$oid" (.string id.toHex)
  | .boolean b => .bool b
  | .dateTime millis => wrap "$date" (wrap "$numberLong" (.string (toString millis.toInt)))
  | .null => .null
  | .regularExpression pattern options =>
    wrap "$regularExpression" (.ofMembers [("pattern", .string pattern), ("options", .string options)])
  | .dbPointer collection id =>
    wrap "$dbPointer" (.ofMembers [("$ref", .string collection), ("$id", wrap "$oid" (.string id.toHex))])
  | .javaScript code => wrap "$code" (.string code)
  | .symbol name => wrap "$symbol" (.string name)
  | .scopedCode code ⟨fields⟩ => .ofMembers [("$code", .string code), ("$scope", .object ⟨ofEntries fields⟩)]
  | .int32 n => .int n.toInt
  | .timestamp time increment =>
    wrap "$timestamp" (.ofMembers [("t", .int time.toNat), ("i", .int increment.toNat)])
  | .int64 n => .int n.toInt
  | .decimal128 d => wrap "$numberDecimal" (.string d.toText)
  | .minKey => wrap "$minKey" (.int 1)
  | .maxKey => wrap "$maxKey" (.int 1)

/-- The JSON forms under their names. -/
def ofEntries : List (String × Value) → List (String × Json)
  | [] => []
  | (key, value) :: rest => (key, ofValue value) :: ofEntries rest

def ofItems : List Value → List Json
  | [] => []
  | item :: rest => ofValue item :: ofItems rest

end

def ofDocument (d : Document) : Json := .object ⟨ofEntries d.entries⟩

def expectText (what : String) : Json → Except Fault String
  | .string s => .ok s
  | _ => .error (.notText what)

/-- What a reader found, or the fault. -/
def orFault {α : Type} (fault : Fault) : Option α → Except Fault α
  | some a => .ok a
  | none => .error fault

/-- The bytes of digit pairs, each of which is read by itself. -/
def bytePairs? : List Char → Option (List UInt8)
  | [] => some []
  | a :: b :: rest =>
    match Hex.byte? [a, b], bytePairs? rest with
    | some byte, some bytes => some (byte :: bytes)
    | _, _ => none
  | [_] => none

/-- The object identifier that twelve pairs of ASCII characters spell. -/
def objectId? (text : String) : Option ObjectId :=
  if text.toList.all (·.toNat < 128) then (bytePairs? text.toList).bind ObjectId.ofBytes? else none

def readObjectId (text : String) : Except Fault ObjectId := orFault (.objectId text) (objectId? text)

/-- A number as a value: the least integer width that holds it, or a double. -/
def ofNumber : JsonNumber → Value
  | .int n =>
    if Int32.minValue.toInt ≤ n ∧ n ≤ Int32.maxValue.toInt then .int32 (Int32.ofInt n)
    else if Int64.minValue.toInt ≤ n ∧ n ≤ Int64.maxValue.toInt then .int64 (Int64.ofInt n)
    else .double (.ofInt n)
  | .float x => .double x

def readDouble (text : String) : Except Fault Binary64 :=
  orFault (.number "$numberDouble" text) (Binary64.ofText? text)

/-- A moment: milliseconds as an integer, or wrapped in text. -/
def readDate : Json → Except Fault Value
  | .number (.int n) =>
    if Int64.minValue.toInt ≤ n ∧ n ≤ Int64.maxValue.toInt then .ok (.dateTime (Int64.ofInt n)) else .error .dateNumber
  | .number (.float _) => .error .dateNumber
  | .object members =>
    match members.get? "$numberLong" with
    | some (.string text) =>
      (orFault (.number "$date" text) (Numeral.int64? text)).map .dateTime
    | _ => .error .dateObject
  | _ => .error .dateForm

/-- An integer of 32 bits without sign. -/
def word? (j : Json) : Option UInt32 :=
  j.int?.bind fun n => if 0 ≤ n ∧ n < UInt32.size then some (UInt32.ofNat n.toNat) else none

/-- The value of an object of one member, if the member is a wrapper. -/
def wrapper? (key : String) (j : Json) : Option (Except Fault Value) :=
  match key with
  | "$oid" => some do
    let text ← expectText "$oid" j
    return .objectId (← readObjectId text)
  | "$numberInt" => some do
    let text ← expectText "$numberInt" j
    return .int32 (← orFault (.number "$numberInt" text) (Numeral.int32? text))
  | "$numberLong" => some do
    let text ← expectText "$numberLong" j
    return .int64 (← orFault (.number "$numberLong" text) (Numeral.int64? text))
  | "$numberDouble" => some do
    let text ← expectText "$numberDouble" j
    return .double (← readDouble text)
  | "$binary" => some do
    let encoded ← expectText "$binary.base64" (j.member "base64")
    let subtype ← expectText "$binary.subType" (j.member "subType")
    let bytes ← orFault .base64 (Base64.decode? encoded)
    return .binary (← orFault (.subtype subtype) (Hex.byte? subtype.toList)) bytes
  | "$date" => some (readDate j)
  | "$timestamp" => some <|
    match word? (j.member "t"), word? (j.member "i") with
    | some time, some increment => .ok (.timestamp time increment)
    | _, _ => .error .timestamp
  | "$regularExpression" => some do
    let pattern ← expectText "pattern" (j.member "pattern")
    return .regularExpression pattern (← expectText "options" (j.member "options"))
  | "$dbPointer" => some do
    let collection ← expectText "$ref" (j.member "$ref")
    let text ← expectText "$id" ((j.member "$id").member "$oid")
    return .dbPointer collection (← readObjectId text)
  | "$code" => some ((expectText "$code" j).map .javaScript)
  | "$symbol" => some ((expectText "$symbol" j).map .symbol)
  | "$undefined" => some (.ok .undefined)
  | "$minKey" => some (.ok .minKey)
  | "$maxKey" => some (.ok .maxKey)
  | _ => none

mutual

def toValue : Json → Except Fault Value
  | .null => .ok .null
  | .bool b => .ok (.boolean b)
  | .number n => .ok (ofNumber n)
  | .string s => .ok (.string s)
  | .array items =>
    match toItems items with
    | .ok items => .ok (.array items)
    | .error fault => .error fault
  | .object ⟨entries⟩ =>
    match wrapped? entries with
    | some result => result
    | none =>
      match toEntries entries with
      | .ok entries => .ok (.document ⟨entries⟩)
      | .error fault => .error fault

/-- The value of an object that is a wrapper: one reserved member, or code with its scope. -/
def wrapped? : List (String × Json) → Option (Except Fault Value)
  | [(key, j)] => wrapper? key j
  | [(key, code), (key', scope)] =>
    if key = "$code" ∧ key' = "$scope" then
      match expectText "$code" code with
      | .error fault => some (.error fault)
      | .ok code =>
        match scope with
        | .object ⟨entries⟩ =>
          match toEntries entries with
          | .ok entries => some (.ok (.scopedCode code ⟨entries⟩))
          | .error fault => some (.error fault)
        | found => some (.error (.notObject found))
    else none
  | _ => none

/-- The values under their names; the first fault wins. -/
def toEntries : List (String × Json) → Except Fault (List (String × Value))
  | [] => .ok []
  | (key, j) :: rest =>
    match toValue j with
    | .error fault => .error fault
    | .ok value =>
      match toEntries rest with
      | .error fault => .error fault
      | .ok rest => .ok ((key, value) :: rest)

def toItems : List Json → Except Fault (List Value)
  | [] => .ok []
  | j :: rest =>
    match toValue j with
    | .error fault => .error fault
    | .ok value =>
      match toItems rest with
      | .error fault => .error fault
      | .ok rest => .ok (value :: rest)

end

/-- The document that a JSON value describes. Its own first member may have any name. -/
def toDocument : Json → Except Fault Document
  | .object ⟨entries⟩ => (toEntries entries).map Record.mk
  | found => .error (.notObject found)

end Aggregation.ExtendedJson
