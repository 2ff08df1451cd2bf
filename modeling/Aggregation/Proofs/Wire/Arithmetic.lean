import Aggregation.Proofs.Wire.Clients
import Mathlib.Data.Nat.PSub

/-!
A reader whose arithmetic is checked. Its steps are those of the reader, but a difference below zero, a difference of
signed lengths that 32 bits cannot hold, a length below zero as a number of bytes and a slice out of range end
everything. Text up to a NUL is looked for piece by piece, as the source delivers it.
-/

namespace Aggregation.Wire

/-- A step whose arithmetic is checked. There is no outcome if some of it fails. -/
abbrev Checked (σ α : Type) := ExceptT WireError (StateT σ Option) α

namespace Checked

variable {σ α : Type}

/-- A step without arithmetic that could fail. -/
instance : MonadLift (ExceptT WireError (StateM σ)) (Checked σ) where
  monadLift x := fun s => some (x.run.run s)

/-- The part of a buffer from an index up to another. -/
def slice (buffer : Array UInt8) (start stop : Nat) : Option (Array UInt8) :=
  if start ≤ stop ∧ stop ≤ buffer.size then some (buffer.extract start stop) else none

/-- The difference of two lengths, if 32 bits can hold it. -/
def lengthDifference (a b : Int) : Option Int := if -2 ^ 31 ≤ a - b ∧ a - b < 2 ^ 31 then some (a - b) else none

/-! ## Steps of a buffer -/

/-- Takes deliveries until `wanted` bytes follow the cursor. -/
def receive (cursor wanted : Nat) : List Delivery → Array UInt8 → Option (Array UInt8 × List Delivery)
  | [], buffer => do
    discard <| buffer.size.psub cursor
    return (buffer, [])
  | delivery :: later, buffer => do
    if wanted ≤ (← buffer.size.psub cursor) then return (buffer, delivery :: later)
    match delivery with
    | .interrupted => receive cursor wanted later buffer
    | .chunk first rest => receive cursor wanted later (buffer.push first ++ rest)

/-- The number of kept bytes that are unread. -/
def available (b : ReplayBuffer) : Option Nat := b.buffer.size.psub b.cursor

def fill (wanted : Nat) : Checked ReplayBuffer Bool := do
  let b ← get
  match b.source with
  | none => throw .closed
  | some source =>
    let (buffer, deliveries) ← receive b.cursor wanted source.deliveries b.buffer
    set { b with buffer, source := some { source with deliveries } }
    if wanted ≤ (← available (← get)) then return true
    Replay.checkEnding source.ending
    return false

def bytes (count : Nat) : Checked ReplayBuffer (List UInt8) := do
  unless ← fill count do Replay.outOfBytes
  let b ← get
  Replay.advance count
  return (← slice b.buffer b.cursor (b.cursor + count)).toList

def skip (count : Nat) : Checked ReplayBuffer Unit := do
  unless ← fill count do Replay.outOfBytes
  Replay.advance count

def byte : Checked ReplayBuffer UInt8 := do
  unless ← fill 1 do Replay.outOfBytes
  let b ← get
  Replay.advance 1
  b.buffer[b.cursor]?

def natural (count : Nat) : Checked ReplayBuffer Nat := return littleEndian (← bytes count)

def int32 : Checked ReplayBuffer Int32 := return (UInt32.ofNat (← natural 4)).toInt32

def int64 : Checked ReplayBuffer Int64 := return (UInt64.ofNat (← natural 8)).toInt64

/-- Looks for a NUL after `scanned` unread bytes that have none, and asks the source for more while there is none. Every
further round has taken a delivery, so one round more than there are deliveries is enough. -/
def scan : (rounds scanned : Nat) → Checked ReplayBuffer (List UInt8)
  | 0, _ => (none : Option (List UInt8))
  | rounds + 1, scanned => do
    let b ← get
    match (← slice b.buffer (b.cursor + scanned) b.buffer.size).toList.idxOf? 0 with
    | some i =>
      let stop := b.cursor + scanned + i
      let name ← slice b.buffer b.cursor stop
      set { b with cursor := stop + 1 }
      return name.toList
    | none =>
      let scanned ← available b
      if ← fill (scanned + 1) then scan rounds scanned else Replay.outOfBytes

def cstring : Checked ReplayBuffer (List UInt8) := do
  let b ← get
  scan ((b.source.map fun source => source.deliveries.length).getD 0 + 1) 0

/-- The buffer after the cursor has been moved to an offset, or none if the offset is not kept. -/
def rewind (b : ReplayBuffer) (position : Nat) : Option (Option ReplayBuffer) :=
  if position < b.base ∨ b.frontier < position then return none
  else return some { b with cursor := ← position.psub b.base }

def compact (b : ReplayBuffer) : Option ReplayBuffer := do
  let kept ← b.oldest.psub b.base
  return { b with
    buffer := ← slice b.buffer kept b.buffer.size
    base := b.base + kept
    cursor := ← b.cursor.psub kept }

/-! ## Steps of a reader -/

open Read (ensureOpen refuse offset segment endValue beginValue expectType record)

def onInput (step : Checked ReplayBuffer α) : Checked Reader α := fun r => do
  let (result, input) ← step r.input
  return (result, { r with input })

/-- A length as a number of bytes. -/
def size (length : Int32) : Option Nat := length.toInt.toNat?

def length (minimum : Int) : Checked Reader Int32 := do
  let start ← offset
  let length ← onInput int32
  if length.toInt < minimum then throw (.invalidLength length.toInt start)
  let limit := (← get).limits.maxDocumentSize
  if limit < length.toInt then throw (.documentTooLarge length.toInt limit)
  return length

def openContainer (kind : FrameKind) : Checked Reader Unit := do
  let r ← get
  let depth := r.frames.length + 1
  if r.limits.maxNestingDepth < depth then throw (.nestingTooDeep depth r.limits.maxNestingDepth)
  let declared ← length 0
  modify fun r' => { r' with frames := ⟨kind, r.position, declared, segment r, -1⟩ :: r'.frames }

def closeContainer : Checked Reader Frame := do
  let r ← get
  match r.frames with
  | [] => refuse "pop_container"
  | frame :: frames =>
    set { r with frames }
    let consumed ← r.position.psub frame.start
    if (consumed : Int) ≠ frame.declared.toInt then
      throw (.lengthMismatch r.containerPath frame.declared.toInt consumed)
    return frame

def finishContainer : Checked Reader Unit := do
  modify fun r => { r with currentType := none, currentName := none }
  endValue
  let r ← get
  if r.frames.isEmpty then set { r with input := ← compact r.input }

def offendingName : Checked Reader String := do
  match (← get).frames with
  | [] => return "?"
  | frame :: _ =>
    match frame.kind with
    | .array => return toString frame.index
    | .scopedCode => return "?"
    | _ => tryCatch (Utf8.lossy <$> onInput cstring) fun _ => return "?"

def isAtEnd : Checked Reader Bool := do
  ensureOpen
  match (← get).state with
  | .initial | .done => return !(← onInput (fill 1))
  | _ => return false

def elementTag (tag : UInt8) : Checked Reader ElementType := do
  match ElementType.ofTag? tag with
  | some type =>
    modify fun r => { r with currentType := some type, currentName := none, state := .name }
    return type
  | none =>
    let leaf ← offendingName
    let path := (← get).elementPath leaf
    record (Log.Event.unknownType.entry [("path", path), ("tag", Hex.padded 2 tag.toNat)])
    throw (.unknownType tag path)

def innerTag (tag : UInt8) : Checked Reader ElementType := do
  match (← get).frames with
  | [] => refuse "read_bson_type"
  | frame :: frames =>
    if tag = 0 then
      modify fun r => { r with
        currentType := some .endOfDocument
        currentName := none
        state := if frame.kind = .array then .endOfArray else .endOfDocument }
      return .endOfDocument
    if frame.kind = .array then
      modify fun r => { r with frames := { frame with index := frame.index + 1 } :: frames }
    elementTag tag

def readType : Checked Reader ElementType := do
  ensureOpen
  match (← get).state with
  | .initial | .done =>
    modify fun r => { r with currentType := some .document, currentName := none, state := .value }
    return .document
  | .type => innerTag (← onInput byte)
  | _ => refuse "read_bson_type"

def readName : Checked Reader String := do
  ensureOpen
  if (← get).state ≠ .name then refuse "read_name"
  let start ← offset
  match Utf8.decode? (← onInput cstring) with
  | none => throw (.malformedValue start .nameNotText)
  | some name =>
    modify fun r => { r with currentName := some name, state := .value }
    return name

def expectName (expected : String) : Checked Reader Unit := do
  let actual ← readName
  if actual ≠ expected then throw (.fieldNameMismatch expected actual ((← get).elementPath actual))

def skipName : Checked Reader Unit := do
  ensureOpen
  if (← get).state ≠ .name then refuse "skip_name"
  discard <| onInput cstring
  modify fun r => { r with currentName := none, state := .value }

def startContainer (kind : FrameKind) : Checked Reader Unit := do
  openContainer kind
  modify fun r => { r with state := .type }

def startDocument : Checked Reader Unit := do
  ensureOpen
  let kind ← match (← get).state with
    | .initial | .done => pure FrameKind.document
    | .scopeDocument => pure FrameKind.scopeDocument
    | .value => do
      expectType "read_start_document" .document
      pure FrameKind.document
    | _ => refuse "read_start_document"
  startContainer kind

def endDocument : Checked Reader Unit := do
  ensureOpen
  let r ← get
  match r.frames with
  | [] => throw (.prematureEnd "read_end_document" .noDocument)
  | frame :: _ =>
    if frame.kind = .array ∨ frame.kind = .scopedCode then
      throw (.prematureEnd "read_end_document" .notADocument)
    if r.state ≠ .endOfDocument then
      throw (.prematureEnd "read_end_document" (.terminatorUnread r.state.label))
    let closed ← closeContainer
    if closed.kind = .scopeDocument ∧ (← get).frames.head?.map Frame.kind = some .scopedCode then
      discard closeContainer
    finishContainer

def startArray : Checked Reader Unit := do
  beginValue "read_start_array" .array
  startContainer .array

def endArray : Checked Reader Unit := do
  ensureOpen
  let r ← get
  if r.frames.head?.map Frame.kind ≠ some .array then throw (.prematureEnd "read_end_array" .notAnArray)
  if r.state ≠ .endOfArray then throw (.prematureEnd "read_end_array" (.terminatorUnread r.state.label))
  discard closeContainer
  finishContainer

def skippedSize (type : ElementType) : Checked Reader Nat := do
  match type with
  | .double | .dateTime | .int64 | .timestamp => return 8
  | .int32 => return 4
  | .boolean => return 1
  | .null | .undefined | .minKey | .maxKey => return 0
  | .objectId => return 12
  | .decimal128 => return 16
  | .string | .javaScript | .symbol => size (← length 1)
  | .dbPointer => return (← size (← length 1)) + 12
  | .document | .array | .scopedCode => (← size (← length 5)).psub 4
  | .binary => return (← size (← length 0)) + 1
  | .regularExpression =>
    discard <| onInput cstring
    discard <| onInput cstring
    return 0
  | .endOfDocument => refuse "skip_value"

def skipValue : Checked Reader Unit := do
  ensureOpen
  if (← get).state ≠ .value then refuse "skip_value"
  match (← get).currentType with
  | none => refuse "skip_value"
  | some type =>
    let size ← skippedSize type
    onInput (skip size)
    endValue

def readScalar (operation : String) (type : ElementType) (payload : Checked Reader α) : Checked Reader α := do
  beginValue operation type
  let value ← payload
  endValue
  return value

def stringPayload : Checked Reader String := do
  let start ← offset
  let bytes ← onInput (bytes (← size (← length 1)))
  if bytes.getLast? ≠ some 0 then throw (.malformedValue start .stringNotTerminated)
  match Utf8.decode? bytes.dropLast with
  | none => throw (.malformedValue start .stringNotText)
  | some text => return text

def regexPart : Checked Reader String := do
  let start ← offset
  match Utf8.decode? (← onInput cstring) with
  | none => throw (.malformedValue start .regexPartNotText)
  | some text => return text

def objectIdPayload : Checked Reader ObjectId := do
  match ObjectId.ofBytes? (← onInput (bytes 12)) with
  | some id => return id
  | none => onInput Replay.outOfBytes

def decimal128Payload : Checked Reader Decimal128 := do
  match Decimal128.ofBytes? (← onInput (bytes 16)) with
  | some d => return d
  | none => onInput Replay.outOfBytes

def booleanPayload : Checked Reader Bool := do
  let start ← offset
  let b ← onInput byte
  if b = 0 then return false
  if b = 1 then return true
  throw (.malformedValue start (.booleanByte b))

def binaryPayload : Checked Reader (UInt8 × List UInt8) := do
  let start ← offset
  let outer ← length 0
  let subtype ← onInput byte
  if subtype = 2 then
    let inner ← onInput int32
    let expected ← lengthDifference outer.toInt 4
    if inner.toInt < 0 ∨ inner.toInt ≠ expected then
      throw (.malformedValue start (.legacyLength inner.toInt outer.toInt))
    return (subtype, ← onInput (bytes (← size inner)))
  return (subtype, ← onInput (bytes (← size outer)))

def readScopedCode : Checked Reader String := do
  beginValue "read_javascript_with_scope" .scopedCode
  openContainer .scopedCode
  let code ← stringPayload
  modify fun r => { r with state := .scopeDocument }
  return code

def returnTo (b : Bookmark) : Checked Reader Unit := do
  ensureOpen
  let r ← get
  let stale {α : Type} (cause : Staleness) : Checked Reader α := do
    record (Log.Event.staleBookmark.entry
      [("position", toString b.pin.position), ("reason", cause.reason)])
    throw (.staleBookmark b.pin.position cause)
  if b.reader ≠ r.serial then stale .otherReader
  match ← rewind r.input b.pin.position with
  | none => stale .notBuffered
  | some input =>
    set { r with
      input, state := b.state, currentType := b.currentType, currentName := b.currentName, frames := b.frames }

/-- A call with all its arithmetic checked. -/
def read : (call : Call) → Checked Reader call.Result
  | .isAtEnd => isAtEnd
  | .readType => readType
  | .readName => readName
  | .expectName expected => expectName expected
  | .skipName => skipName
  | .startDocument => startDocument
  | .endDocument => endDocument
  | .startArray => startArray
  | .endArray => endArray
  | .skipValue => skipValue
  | .readDouble => readScalar "read_double" .double (return ⟨UInt64.ofNat (← onInput (natural 8))⟩)
  | .readString => readScalar "read_string" .string stringPayload
  | .readBinary => readScalar "read_binary" .binary binaryPayload
  | .readUndefined => readScalar "read_undefined" .undefined (pure ())
  | .readObjectId => readScalar "read_object_id" .objectId objectIdPayload
  | .readBoolean => readScalar "read_boolean" .boolean booleanPayload
  | .readDateTime => readScalar "read_date_time" .dateTime (onInput int64)
  | .readNull => readScalar "read_null" .null (pure ())
  | .readRegularExpression =>
    readScalar "read_regular_expression" .regularExpression do
      let pattern ← regexPart
      return (pattern, ← regexPart)
  | .readDbPointer =>
    readScalar "read_db_pointer" .dbPointer do
      let collection ← stringPayload
      return (collection, ← objectIdPayload)
  | .readJavaScript => readScalar "read_javascript" .javaScript stringPayload
  | .readSymbol => readScalar "read_symbol" .symbol stringPayload
  | .readScopedCode => readScopedCode
  | .readInt32 => readScalar "read_int32" .int32 (onInput int32)
  | .readTimestamp =>
    readScalar "read_timestamp" .timestamp do
      let word ← onInput (natural 8)
      return (UInt32.ofNat (word / UInt32.size), UInt32.ofNat word)
  | .readInt64 => readScalar "read_int64" .int64 (onInput int64)
  | .readDecimal128 => readScalar "read_decimal128" .decimal128 decimal128Payload
  | .readMinKey => readScalar "read_min_key" .minKey (pure ())
  | .readMaxKey => readScalar "read_max_key" .maxKey (pure ())

end Checked

namespace Client

/-- An operation with the arithmetic of the reader checked. Taking and dropping a bookmark have none that could
fail. -/
def checkedStep (c : Client) : Operation → Option (Answer × Client)
  | .call call => do
    let (result, reader) ← (Checked.read call).run.run c.reader
    return (⟨.called call result, reader.face⟩, { c with reader })
  | .returnTo slot =>
    match c.held slot with
    | none => return (⟨.returned none, c.reader.face⟩, c)
    | some b => do
      let (result, reader) ← (Checked.returnTo b).run.run c.reader
      return (⟨.returned (some result), reader.face⟩, { c with reader })
  | .take slot => return c.step (.take slot)
  | .drop slot => return c.step (.drop slot)

def checkedRun (c : Client) : List Operation → Option (List Answer × Client)
  | [] => return ([], c)
  | operation :: later => do
    let (answer, c) ← c.checkedStep operation
    let (answers, c) ← c.checkedRun later
    return (answer :: answers, c)

end Client

end Aggregation.Wire
