import Aggregation.Value.Basic

/-! Element types of the binary format and their tags. -/

namespace Aggregation.Wire

/-- The type of an element; `endOfDocument` is the terminator of a container and no type of value. -/
inductive ElementType where
  | endOfDocument
  | double
  | string
  | document
  | array
  | binary
  | undefined
  | objectId
  | boolean
  | dateTime
  | null
  | regularExpression
  | dbPointer
  | javaScript
  | symbol
  | scopedCode
  | int32
  | timestamp
  | int64
  | decimal128
  | maxKey
  | minKey
  deriving DecidableEq, Repr, Inhabited

namespace ElementType

def all : List ElementType :=
  [.endOfDocument, .double, .string, .document, .array, .binary, .undefined, .objectId, .boolean, .dateTime,
    .null, .regularExpression, .dbPointer, .javaScript, .symbol, .scopedCode, .int32, .timestamp, .int64,
    .decimal128, .maxKey, .minKey]

/-- The byte that stands for a type. -/
def tag : ElementType → UInt8
  | .endOfDocument => 0x00
  | .double => 0x01
  | .string => 0x02
  | .document => 0x03
  | .array => 0x04
  | .binary => 0x05
  | .undefined => 0x06
  | .objectId => 0x07
  | .boolean => 0x08
  | .dateTime => 0x09
  | .null => 0x0A
  | .regularExpression => 0x0B
  | .dbPointer => 0x0C
  | .javaScript => 0x0D
  | .symbol => 0x0E
  | .scopedCode => 0x0F
  | .int32 => 0x10
  | .timestamp => 0x11
  | .int64 => 0x12
  | .decimal128 => 0x13
  | .maxKey => 0x7F
  | .minKey => 0xFF

/-- The type that a byte stands for. -/
def ofTag? (tag : UInt8) : Option ElementType := all.find? (·.tag == tag)

def name : ElementType → String
  | .endOfDocument => "EndOfDocument"
  | .double => "Double"
  | .string => "String"
  | .document => "Document"
  | .array => "Array"
  | .binary => "Binary"
  | .undefined => "Undefined"
  | .objectId => "ObjectId"
  | .boolean => "Boolean"
  | .dateTime => "DateTime"
  | .null => "Null"
  | .regularExpression => "RegularExpression"
  | .dbPointer => "DbPointer"
  | .javaScript => "JavaScript"
  | .symbol => "Symbol"
  | .scopedCode => "JavaScriptWithScope"
  | .int32 => "Int32"
  | .timestamp => "Timestamp"
  | .int64 => "Int64"
  | .decimal128 => "Decimal128"
  | .maxKey => "MaxKey"
  | .minKey => "MinKey"

def ofName? (name : String) : Option ElementType := all.find? (·.name == name)

theorem ofTag?_tag (t : ElementType) : ofTag? t.tag = some t := by cases t <;> rfl

theorem tag_of_ofTag? {tag : UInt8} {t : ElementType} (h : ofTag? tag = some t) : t.tag = tag := by
  simpa using List.find?_some h

end ElementType

end Aggregation.Wire

namespace Aggregation.Value

def elementType : Value → Wire.ElementType
  | .double _ => .double
  | .string _ => .string
  | .document _ => .document
  | .array _ => .array
  | .binary _ _ => .binary
  | .undefined => .undefined
  | .objectId _ => .objectId
  | .boolean _ => .boolean
  | .dateTime _ => .dateTime
  | .null => .null
  | .regularExpression _ _ => .regularExpression
  | .dbPointer _ _ => .dbPointer
  | .javaScript _ => .javaScript
  | .symbol _ => .symbol
  | .scopedCode _ _ => .scopedCode
  | .int32 _ => .int32
  | .timestamp _ _ => .timestamp
  | .int64 _ => .int64
  | .decimal128 _ => .decimal128
  | .minKey => .minKey
  | .maxKey => .maxKey

end Aggregation.Value
