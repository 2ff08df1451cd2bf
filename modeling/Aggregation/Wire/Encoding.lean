import Aggregation.Wire.Writer

/-! Whole values on a writer. -/

namespace Aggregation.Wire.Writer

mutual

/-- Writes a value. In a document its name has been written before. -/
def writeValue : Value → Write Unit
  | .double x => writeDouble x
  | .string s => writeString s
  | .document ⟨fields⟩ => do
    startDocument
    writeFields fields
    endDocument
  | .array items => do
    startArray
    writeItems items
    endArray
  | .binary subtype bytes => writeBinary subtype bytes
  | .undefined => writeUndefined
  | .objectId id => writeObjectId id
  | .boolean b => writeBoolean b
  | .dateTime millis => writeDateTime millis
  | .null => writeNull
  | .regularExpression pattern options => writeRegularExpression pattern options
  | .dbPointer collection id => writeDbPointer collection id
  | .javaScript code => writeJavaScript code
  | .symbol name => writeSymbol name
  | .scopedCode code ⟨fields⟩ => do
    writeScopedCode code
    startDocument
    writeFields fields
    endDocument
  | .int32 n => writeInt32 n
  | .timestamp time increment => writeTimestamp time increment
  | .int64 n => writeInt64 n
  | .decimal128 d => writeDecimal128 d
  | .minKey => writeMinKey
  | .maxKey => writeMaxKey

def writeFields : List (String × Value) → Write Unit
  | [] => pure ()
  | (name, value) :: rest => do
    writeName name
    writeValue value
    writeFields rest

def writeItems : List Value → Write Unit
  | [] => pure ()
  | item :: rest => do
    writeValue item
    writeItems rest

end

/-- Writes a document. At the top level the sink has it afterwards. -/
def writeDocument (d : Document) : Write Unit := do
  startDocument
  writeFields d.entries
  endDocument

def writeDocuments : List Document → Write Unit
  | [] => pure ()
  | d :: rest => do
    writeDocument d
    writeDocuments rest

end Aggregation.Wire.Writer
