import Aggregation.Record
import Aggregation.Number.Binary64
import Aggregation.Number.Decimal128
import Aggregation.Text.Hex

/-! The value model: the twenty-one kinds of value that a document can hold, and documents as records of
values. -/

namespace Aggregation

/-- A twelve-byte object identifier. -/
structure ObjectId where
  bytes : List UInt8
  size_eq : bytes.length = 12
  deriving DecidableEq, Repr

namespace ObjectId

/-- Two lower-case digits for each byte. -/
def toHex (id : ObjectId) : String := Hex.encode id.bytes

/-- The identifier of twelve bytes. -/
def ofBytes? (bytes : List UInt8) : Option ObjectId :=
  if h : bytes.length = 12 then some ⟨bytes, h⟩ else none

end ObjectId

def Decimal128.ofBytes? (bytes : List UInt8) : Option Decimal128 :=
  if h : bytes.length = 16 then some ⟨bytes, h⟩ else none

inductive Value where
  | double (x : Binary64)
  | string (s : String)
  | document (fields : Record Value)
  | array (items : List Value)
  | binary (subtype : UInt8) (bytes : List UInt8)
  | undefined
  | objectId (id : ObjectId)
  | boolean (b : Bool)
  /-- Milliseconds since the start of 1970. -/
  | dateTime (millis : Int64)
  | null
  | regularExpression (pattern options : String)
  | dbPointer (collection : String) (id : ObjectId)
  | javaScript (code : String)
  | symbol (name : String)
  | scopedCode (code : String) (scope : Record Value)
  | int32 (n : Int32)
  /-- Seconds, and an ordinal within the second. -/
  | timestamp (time increment : UInt32)
  | int64 (n : Int64)
  | decimal128 (d : Decimal128)
  | minKey
  | maxKey
  deriving Repr

instance : Inhabited Value := ⟨.null⟩

/-- An insertion-ordered map from names to values. -/
abbrev Document := Record Value

namespace Value

def text? : Value → Option String
  | .string s => some s
  | _ => none

def document? : Value → Option Document
  | .document fields => some fields
  | _ => none

def items? : Value → Option (List Value)
  | .array items => some items
  | _ => none

/-- The number of an integer of either width. -/
def int? : Value → Option Int
  | .int32 n => some n.toInt
  | .int64 n => some n.toInt
  | _ => none

def bool? : Value → Option Bool
  | .boolean b => some b
  | _ => none

end Value

def Record.document? (d : Document) (key : String) : Option Document := (d.get? key).bind Value.document?

end Aggregation
