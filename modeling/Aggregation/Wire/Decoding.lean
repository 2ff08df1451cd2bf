import Aggregation.Wire.Reader

/-! Whole values from a reader. Every element takes at least two bytes, so the number of bytes that can still be
read bounds both the number of elements and their depth. -/

namespace Aggregation.Wire.Reader

open Read

mutual

def readValueWithin : Nat → ElementType → Read Value
  | 0, _ => onInput Replay.outOfBytes
  | fuel + 1, type =>
    match type with
    | .double => return .double (← readDouble)
    | .string => return .string (← readString)
    | .document => return .document (← readDocumentWithin fuel)
    | .array => return .array (← readArrayWithin fuel)
    | .binary => do
      let (subtype, bytes) ← readBinary
      return .binary subtype bytes
    | .undefined => do
      readUndefined
      return .undefined
    | .objectId => return .objectId (← readObjectId)
    | .boolean => return .boolean (← readBoolean)
    | .dateTime => return .dateTime (← readDateTime)
    | .null => do
      readNull
      return .null
    | .regularExpression => do
      let (pattern, options) ← readRegularExpression
      return .regularExpression pattern options
    | .dbPointer => do
      let (collection, id) ← readDbPointer
      return .dbPointer collection id
    | .javaScript => return .javaScript (← readJavaScript)
    | .symbol => return .symbol (← readSymbol)
    | .scopedCode => do
      let code ← readScopedCode
      return .scopedCode code (← readDocumentWithin fuel)
    | .int32 => return .int32 (← readInt32)
    | .timestamp => do
      let (time, increment) ← readTimestamp
      return .timestamp time increment
    | .int64 => return .int64 (← readInt64)
    | .decimal128 => return .decimal128 (← readDecimal128)
    | .minKey => do
      readMinKey
      return .minKey
    | .maxKey => do
      readMaxKey
      return .maxKey
    | .endOfDocument => throw (.invalidState "read_value" "EndOfDocument")

def readDocumentWithin : Nat → Read Document
  | 0 => onInput Replay.outOfBytes
  | fuel + 1 => do
    startDocument
    let d ← readFieldsWithin fuel .empty
    endDocument
    return d

/-- Reads elements up to the terminator and adds them to a document. No name may come twice. -/
def readFieldsWithin : Nat → Document → Read Document
  | 0, _ => onInput Replay.outOfBytes
  | fuel + 1, d => do
    let start ← offset
    let type ← readType
    if type = .endOfDocument then return d
    let name ← readName
    if d.contains name then throw (.malformedValue start (.duplicateField name))
    let value ← readValueWithin fuel type
    readFieldsWithin fuel (d.insert name value)

def readArrayWithin : Nat → Read (List Value)
  | 0 => onInput Replay.outOfBytes
  | fuel + 1 => do
    startArray
    let items ← readItemsWithin fuel
    endArray
    return items

/-- Reads the items of an array up to the terminator. Their names are passed over. -/
def readItemsWithin : Nat → Read (List Value)
  | 0 => onInput Replay.outOfBytes
  | fuel + 1 => do
    let type ← readType
    if type = .endOfDocument then return []
    skipName
    let item ← readValueWithin fuel type
    return item :: (← readItemsWithin fuel)

end

/-- More steps than reading a value from here can take. -/
def steps (r : Reader) : Nat := r.supply + 4

def readValue (type : ElementType) : Read Value := do readValueWithin (← get).steps type

/-- Reads a document. A name that comes twice in it is an error. -/
def readDocument : Read Document := do readDocumentWithin (← get).steps

end Aggregation.Wire.Reader
