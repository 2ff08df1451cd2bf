import Aggregation.Proofs.Wire.RelatedSteps
import Mathlib.Logic.Function.Basic

/-! Clients of a reader. A client reads, takes bookmarks, returns to them and drops them, in any order, and sees of each
operation its result and what the reader shows afterwards. -/

namespace Aggregation.Wire

open Stepping

/-- What a client may ask a reader to read. -/
inductive Call where
  | isAtEnd
  | readType
  | readName
  | expectName (expected : String)
  | skipName
  | startDocument
  | endDocument
  | startArray
  | endArray
  | skipValue
  | readDouble
  | readString
  | readBinary
  | readUndefined
  | readObjectId
  | readBoolean
  | readDateTime
  | readNull
  | readRegularExpression
  | readDbPointer
  | readJavaScript
  | readSymbol
  | readScopedCode
  | readInt32
  | readTimestamp
  | readInt64
  | readDecimal128
  | readMinKey
  | readMaxKey

namespace Call

/-- What a call gives if it succeeds. -/
def Result : Call → Type
  | isAtEnd | readBoolean => Bool
  | readType => ElementType
  | readName | readString | readJavaScript | readSymbol | readScopedCode => String
  | expectName _ | skipName | startDocument | endDocument | startArray | endArray | skipValue | readUndefined
  | readNull | readMinKey | readMaxKey => Unit
  | readDouble => Binary64
  | readBinary => UInt8 × List UInt8
  | readObjectId => ObjectId
  | readDateTime | readInt64 => Int64
  | readRegularExpression => String × String
  | readDbPointer => String × ObjectId
  | readInt32 => Int32
  | readTimestamp => UInt32 × UInt32
  | readDecimal128 => Decimal128

def read : (call : Call) → Read call.Result
  | isAtEnd => Reader.isAtEnd
  | readType => Reader.readType
  | readName => Reader.readName
  | expectName expected => Reader.expectName expected
  | skipName => Reader.skipName
  | startDocument => Reader.startDocument
  | endDocument => Reader.endDocument
  | startArray => Reader.startArray
  | endArray => Reader.endArray
  | skipValue => Reader.skipValue
  | readDouble => Reader.readDouble
  | readString => Reader.readString
  | readBinary => Reader.readBinary
  | readUndefined => Reader.readUndefined
  | readObjectId => Reader.readObjectId
  | readBoolean => Reader.readBoolean
  | readDateTime => Reader.readDateTime
  | readNull => Reader.readNull
  | readRegularExpression => Reader.readRegularExpression
  | readDbPointer => Reader.readDbPointer
  | readJavaScript => Reader.readJavaScript
  | readSymbol => Reader.readSymbol
  | readScopedCode => Reader.readScopedCode
  | readInt32 => Reader.readInt32
  | readTimestamp => Reader.readTimestamp
  | readInt64 => Reader.readInt64
  | readDecimal128 => Reader.readDecimal128
  | readMinKey => Reader.readMinKey
  | readMaxKey => Reader.readMaxKey

/-- The type of the value that a call reads at once, if it reads one. -/
def expects : Call → Option ElementType
  | readDouble => some .double
  | readString => some .string
  | readBinary => some .binary
  | readUndefined => some .undefined
  | readObjectId => some .objectId
  | readBoolean => some .boolean
  | readDateTime => some .dateTime
  | readNull => some .null
  | readRegularExpression => some .regularExpression
  | readDbPointer => some .dbPointer
  | readJavaScript => some .javaScript
  | readSymbol => some .symbol
  | readInt32 => some .int32
  | readTimestamp => some .timestamp
  | readInt64 => some .int64
  | readDecimal128 => some .decimal128
  | readMinKey => some .minKey
  | readMaxKey => some .maxKey
  | _ => none

open Reader Read in
/-- Of the calls only the look for the end looks ahead. -/
theorem local_read (call : Call) (hne : call ≠ .isAtEnd) : call.read.Local := by
  cases call with
  | isAtEnd => exact absurd rfl hne
  | readType => exact local_readType
  | readName => exact local_readName
  | expectName expected => exact local_expectName expected
  | skipName => exact local_skipName
  | startDocument => exact local_startDocument
  | endDocument => exact local_endDocument
  | startArray => exact local_startArray
  | endArray => exact local_endArray
  | skipValue => exact local_skipValue
  | readDouble => exact local_readScalar _ _ ((local_onInput (Replay.local_natural 8)).bind_pure _)
  | readString | readJavaScript | readSymbol => exact local_readScalar _ _ local_stringPayload
  | readBinary => exact local_readScalar _ _ local_binaryPayload
  | readUndefined | readNull | readMinKey | readMaxKey => exact local_readScalar _ _ (local_pure _)
  | readObjectId => exact local_readScalar _ _ local_objectIdPayload
  | readBoolean => exact local_readScalar _ _ local_booleanPayload
  | readDateTime | readInt64 => exact local_readScalar _ _ (local_onInput Replay.local_int64)
  | readRegularExpression =>
      exact local_readScalar _ _ (local_regexPart.bind fun _ => local_regexPart.bind_pure _)
  | readDbPointer =>
      exact local_readScalar _ _ (local_stringPayload.bind fun _ => local_objectIdPayload.bind_pure _)
  | readScopedCode => exact local_readScopedCode
  | readInt32 => exact local_readScalar _ _ (local_onInput Replay.local_int32)
  | readTimestamp => exact local_readScalar _ _ ((local_onInput (Replay.local_natural 8)).bind_pure _)
  | readDecimal128 => exact local_readScalar _ _ local_decimal128Payload

/-- No call tells two readers apart of which neither lacks anything. -/
theorem steady_read (call : Call) : call.read.Steady := by
  by_cases hend : call = .isAtEnd
  · subst hend
    exact Reader.steady_isAtEnd
  · exact (call.local_read hend).steady

end Call

/-- What a client does. Bookmarks lie in numbered slots. -/
inductive Operation where
  | call (call : Call)
  /-- Takes a bookmark; one that lay in the slot is dropped. -/
  | take (slot : Nat)
  | returnTo (slot : Nat)
  | drop (slot : Nat)

/-- What an operation tells. -/
inductive Report where
  | called (call : Call) (result : Except WireError call.Result)
  /-- What a bookmark tells of itself. -/
  | taken (result : Except WireError (Nat × ReaderState))
  /-- Nothing if there is no bookmark to return to. -/
  | returned (result : Option (Except WireError Unit))
  | dropped

/-- What a client sees of an operation: what it tells, and what the reader shows afterwards. -/
structure Answer where
  report : Report
  face : Reader.Face

/-- A reader, and the bookmarks that are held. -/
structure Client where
  reader : Reader
  held : Nat → Option Bookmark

namespace Client

def drop (c : Client) (slot : Nat) : Client :=
  match c.held slot with
  | none => c
  | some b => { reader := c.reader.dropBookmark b, held := Function.update c.held slot none }

def step (c : Client) : Operation → Answer × Client
  | .call call =>
    let (result, reader) := call.read.run.run c.reader
    (⟨.called call result, reader.face⟩, { c with reader })
  | .take slot =>
    match Reader.bookmark.run.run c.reader with
    | (.ok b, reader) =>
      let c := { c with reader }.drop slot
      (⟨.taken (.ok (b.pin.position, b.state)), c.reader.face⟩, { c with held := Function.update c.held slot (some b) })
    | (.error e, reader) => (⟨.taken (.error e), reader.face⟩, { c with reader })
  | .returnTo slot =>
    match c.held slot with
    | none => (⟨.returned none, c.reader.face⟩, c)
    | some b =>
      let (result, reader) := (Reader.returnTo b).run.run c.reader
      (⟨.returned (some result), reader.face⟩, { c with reader })
  | .drop slot => (⟨.dropped, (c.drop slot).reader.face⟩, c.drop slot)

def run (c : Client) : List Operation → List Answer × Client
  | [] => ([], c)
  | operation :: later =>
    let (answer, c) := c.step operation
    let (answers, c) := c.run later
    (answer :: answers, c)

/-- A client with a new reader, and with bookmarks of other readers. -/
def ofSource (source : Source) (limits : Limits) (serial : Nat) (held : Nat → Option Bookmark) : Client :=
  ⟨.ofSource source limits serial, held⟩

end Client

end Aggregation.Wire
