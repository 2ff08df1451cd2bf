import Aggregation.Log
import Aggregation.Wire.FrameKind
import Aggregation.Wire.Limits
import Aggregation.Wire.ReplayBuffer

/-! A forward reader of the binary format. The caller asks for tags, names and values one by one; the reader
knows what may come next and refuses everything else without moving. A container remembers where it
started and how long it said it was, which is checked when it is closed and not before. -/

namespace Aggregation.Wire

inductive ReaderState where
  | initial
  | type
  | name
  | value
  | scopeDocument
  | endOfDocument
  | endOfArray
  /-- A top-level document has been completed. -/
  | done
  | closed
  deriving DecidableEq, Repr, Inhabited

/-- The name of a state in messages. -/
def ReaderState.label : ReaderState → String
  | .initial => "Initial"
  | .type => "Type"
  | .name => "Name"
  | .value => "Value"
  | .scopeDocument => "ScopeDocument"
  | .endOfDocument => "EndOfDocument"
  | .endOfArray => "EndOfArray"
  | .done => "Done"
  | .closed => "Closed"

/-- A container that is being read. -/
structure Frame where
  kind : FrameKind
  start : Nat
  /-- The length that the container declared, itself included. -/
  declared : Int32
  /-- Its part of a path; the top-level document and a scope document have none. -/
  segment : Option String
  /-- The index of the current item of an array, -1 before the first. -/
  index : Int
  deriving DecidableEq, Repr

/-- A reader. The innermost container comes first. -/
structure Reader where
  /-- Tells the reader apart from others. -/
  serial : Nat
  input : ReplayBuffer
  limits : Limits
  state : ReaderState := .initial
  currentType : Option ElementType := none
  currentName : Option String := none
  frames : List Frame := []
  /-- What has been logged, oldest first. -/
  log : List Log.Entry := []
  deriving Repr

/-- A place to return to. Its pin keeps the bytes after it until the bookmark is dropped. -/
structure Bookmark where
  reader : Nat
  pin : Pin
  state : ReaderState
  currentType : Option ElementType
  currentName : Option String
  frames : List Frame
  deriving Repr

/-- A step of a reader. A failing step leaves the reader as far as it got. -/
abbrev Read (α : Type) := ExceptT WireError (StateM Reader) α

namespace Reader

def ofSource (source : Source) (limits : Limits := {}) (serial : Nat := 0) : Reader :=
  { serial, limits, input := { source := some source } }

/-- The offset of the next unread byte. -/
def position (r : Reader) : Nat := r.input.position

/-- The number of bytes that can still be read. -/
def supply (r : Reader) : Nat := r.input.supply

/-- Whether nothing may be read any more. -/
def isClosed (r : Reader) : Bool := r.state = .closed || r.input.isReleased

/-- The names on the way from the top-level document to the innermost container. -/
def segments (r : Reader) : List String := (r.frames.filterMap Frame.segment).reverse

def containerPath (r : Reader) : String :=
  if r.segments.isEmpty then "<root>" else ".".intercalate r.segments

def elementPath (r : Reader) (leaf : String) : String := ".".intercalate (r.segments ++ [leaf])

/-- Gives up the source, if it is still held, and refuses every later step. -/
def close (r : Reader) : Reader :=
  let log :=
    if r.input.isReleased then r.log
    else r.log ++
      [Log.Event.transportReleased.entry [("side", "reader"), ("position", toString r.position)]]
  { r with input := r.input.release, state := .closed, frames := [], log }

/-- Gives the source back, if it is still held. -/
def release (r : Reader) : Option Source × Reader :=
  (r.input.source, { r with input := r.input.release, state := .closed })

def dropBookmark (r : Reader) (b : Bookmark) : Reader :=
  if b.reader = r.serial then { r with input := r.input.unpin b.pin.serial } else r

end Reader

namespace Read

def onInput {α : Type} (step : Replay α) : Read α := fun r =>
  let (result, input) := step r.input
  (result, { r with input })

def record (entry : Log.Entry) : Read Unit := modify fun r => { r with log := r.log ++ [entry] }

/-- The offset of the next unread byte. -/
def offset : Read Nat := return (← get).position

def ensureOpen : Read Unit := do if (← get).isClosed then throw .closed

/-- Fails because the state does not allow an operation. -/
def refuse {α : Type} (operation : String) : Read α := do throw (.invalidState operation (← get).state.label)

def expectType (operation : String) (expected : ElementType) : Read Unit := do
  match (← get).currentType with
  | some actual => if actual = expected then return else throw (.unexpectedType operation actual)
  | none => refuse operation

def beginValue (operation : String) (expected : ElementType) : Read Unit := do
  ensureOpen
  if (← get).state ≠ .value then refuse operation
  expectType operation expected

/-- Goes on to the next element, or to the end of the top-level document. -/
def endValue : Read Unit :=
  modify fun r => { r with state := if r.frames.isEmpty then .done else .type }

/-- Reads a length that is at least a minimum and within the limit. -/
def length (minimum : Int) : Read Int32 := do
  let start ← offset
  let length ← onInput Replay.int32
  if length.toInt < minimum then throw (.invalidLength length.toInt start)
  let limit := (← get).limits.maxDocumentSize
  if limit < length.toInt then throw (.documentTooLarge length.toInt limit)
  return length

/-- The part that a container at this place has in paths. -/
def segment (r : Reader) : Option String :=
  match r.frames with
  | [] => none
  | parent :: _ =>
    match parent.kind with
    | .array => some (toString parent.index)
    | .scopedCode => none
    | _ => some (r.currentName.getD "?")

/-- Opens a container: its depth is checked first, then its length is read. -/
def openContainer (kind : FrameKind) : Read Unit := do
  let r ← get
  let depth := r.frames.length + 1
  if r.limits.maxNestingDepth < depth then throw (.nestingTooDeep depth r.limits.maxNestingDepth)
  let declared ← length 0
  modify fun r' => { r' with frames := ⟨kind, r.position, declared, segment r, -1⟩ :: r'.frames }

/-- Closes the innermost container and checks its length. -/
def closeContainer : Read Frame := do
  let r ← get
  match r.frames with
  | [] => refuse "pop_container"
  | frame :: frames =>
    set { r with frames }
    let consumed := r.position - frame.start
    if (consumed : Int) ≠ frame.declared.toInt then
      throw (.lengthMismatch r.containerPath frame.declared.toInt consumed)
    return frame

/-- Leaves a container that has been closed. After a top-level document the bytes that nobody holds are forgotten. -/
def finishContainer : Read Unit := do
  modify fun r => { r with currentType := none, currentName := none }
  endValue
  if (← get).frames.isEmpty then modify fun r => { r with input := r.input.compact }

/-- The name of an element whose tag is unknown: its index in an array, in a document the name that follows the
tag as far as it can be read. -/
def offendingName : Read String := fun r =>
  match r.frames with
  | [] => (.ok "?", r)
  | frame :: _ =>
    match frame.kind with
    | .array => (.ok (toString frame.index), r)
    | .scopedCode => (.ok "?", r)
    | _ =>
      match Replay.cstring r.input with
      | (.ok name, input) => (.ok (Utf8.lossy name), { r with input })
      | (.error _, input) => (.ok "?", { r with input })

end Read

namespace Reader

open Read

/-- Whether no further top-level document follows. Nothing is consumed, and inside a document the answer is no. -/
def isAtEnd : Read Bool := do
  ensureOpen
  match (← get).state with
  | .initial | .done => return !(← onInput Replay.hasRemaining)
  | _ => return false

/-- Reads the tag of the next element. At the top level nothing is consumed and the type is that of a
document. -/
def readType : Read ElementType := do
  ensureOpen
  match (← get).state with
  | .initial | .done =>
    modify fun r => { r with currentType := some .document, currentName := none, state := .value }
    return .document
  | .type =>
    let tag ← onInput Replay.byte
    match (← get).frames with
    | [] => refuse "read_bson_type"
    | frame :: frames =>
      if tag = 0 then
        modify fun r => { r with
          currentType := some .endOfDocument
          currentName := none
          state := if frame.kind = .array then .endOfArray else .endOfDocument }
        return .endOfDocument
      if frame.kind = .array then
        modify fun r => { r with frames := { frame with index := frame.index + 1 } :: frames }
      match ElementType.ofTag? tag with
      | some type =>
        modify fun r => { r with currentType := some type, currentName := none, state := .name }
        return type
      | none =>
        let leaf ← offendingName
        let path := (← get).elementPath leaf
        record (Log.Event.unknownType.entry [("path", path), ("tag", Hex.padded 2 tag.toNat)])
        throw (.unknownType tag path)
  | _ => refuse "read_bson_type"

def readName : Read String := do
  ensureOpen
  if (← get).state ≠ .name then refuse "read_name"
  let start ← offset
  match Utf8.decode? (← onInput Replay.cstring) with
  | none => throw (.malformedValue start .nameNotText)
  | some name =>
    modify fun r => { r with currentName := some name, state := .value }
    return name

/-- Reads the name of the current element, which has to be a given one. -/
def expectName (expected : String) : Read Unit := do
  let actual ← readName
  if actual ≠ expected then throw (.fieldNameMismatch expected actual ((← get).elementPath actual))

/-- Passes over the name of the current element. -/
def skipName : Read Unit := do
  ensureOpen
  if (← get).state ≠ .name then refuse "skip_name"
  discard <| onInput Replay.cstring
  modify fun r => { r with currentName := none, state := .value }

/-- Enters a document: at the top level, as the scope of code, or as the current value. -/
def startDocument : Read Unit := do
  ensureOpen
  let kind ← match (← get).state with
    | .initial | .done => pure FrameKind.document
    | .scopeDocument => pure FrameKind.scopeDocument
    | .value => do
      expectType "read_start_document" .document
      pure FrameKind.document
    | _ => refuse "read_start_document"
  openContainer kind
  modify fun r => { r with state := .type }

/-- Leaves a document whose terminator has been read. -/
def endDocument : Read Unit := do
  ensureOpen
  let r ← get
  match r.frames with
  | [] => throw (.prematureEnd "read_end_document" .noDocument)
  | frame :: _ =>
    if frame.kind = .array ∨ frame.kind = .scopedCode then
      throw (.prematureEnd "read_end_document" .notADocument)
    if r.state ≠ .endOfDocument then
      throw (.prematureEnd "read_end_document" (.terminatorUnread r.state.label))
    let closed ← closeContainer
    if closed.kind = .scopeDocument ∧ (← get).frames.head?.map Frame.kind = some .scopedCode then
      discard closeContainer
    finishContainer

def startArray : Read Unit := do
  beginValue "read_start_array" .array
  openContainer .array
  modify fun r => { r with state := .type }

/-- Leaves an array whose terminator has been read. -/
def endArray : Read Unit := do
  ensureOpen
  let r ← get
  if r.frames.head?.map Frame.kind ≠ some .array then throw (.prematureEnd "read_end_array" .notAnArray)
  if r.state ≠ .endOfArray then throw (.prematureEnd "read_end_array" (.terminatorUnread r.state.label))
  discard closeContainer
  finishContainer

/-- The number of bytes that the value of a type has after its length, which is read here. -/
def skippedSize (type : ElementType) : Read Nat := do
  match type with
  | .double | .dateTime | .int64 | .timestamp => return 8
  | .int32 => return 4
  | .boolean => return 1
  | .null | .undefined | .minKey | .maxKey => return 0
  | .objectId => return 12
  | .decimal128 => return 16
  | .string | .javaScript | .symbol => return (← length 1).toInt.toNat
  | .dbPointer => return (← length 1).toInt.toNat + 12
  | .document | .array | .scopedCode => return (← length 5).toInt.toNat - 4
  | .binary => return (← length 0).toInt.toNat + 1
  | .regularExpression =>
    discard <| onInput Replay.cstring
    discard <| onInput Replay.cstring
    return 0
  | .endOfDocument => refuse "skip_value"

/-- Passes over the current value. -/
def skipValue : Read Unit := do
  ensureOpen
  if (← get).state ≠ .value then refuse "skip_value"
  match (← get).currentType with
  | none => refuse "skip_value"
  | some type =>
    let size ← skippedSize type
    onInput (Replay.skip size)
    endValue

def readScalar {α : Type} (operation : String) (type : ElementType) (payload : Read α) : Read α := do
  beginValue operation type
  let value ← payload
  endValue
  return value

/-- A string: a length that counts the terminator, the text and the terminator. -/
def stringPayload : Read String := do
  let start ← offset
  let size ← length 1
  let bytes ← onInput (Replay.bytes size.toInt.toNat)
  if bytes.getLast? ≠ some 0 then throw (.malformedValue start .stringNotTerminated)
  match Utf8.decode? bytes.dropLast with
  | none => throw (.malformedValue start .stringNotText)
  | some text => return text

/-- A part of a regular expression: text up to a NUL. -/
def regexPart : Read String := do
  let start ← offset
  match Utf8.decode? (← onInput Replay.cstring) with
  | none => throw (.malformedValue start .regexPartNotText)
  | some text => return text

def objectIdPayload : Read ObjectId := do
  match ObjectId.ofBytes? (← onInput (Replay.bytes 12)) with
  | some id => return id
  | none => onInput Replay.outOfBytes

def decimal128Payload : Read Decimal128 := do
  match Decimal128.ofBytes? (← onInput (Replay.bytes 16)) with
  | some d => return d
  | none => onInput Replay.outOfBytes

/-- A byte that is zero or one. -/
def booleanPayload : Read Bool := do
  let start ← offset
  let b ← onInput Replay.byte
  if b = 0 then return false
  if b = 1 then return true
  throw (.malformedValue start (.booleanByte b))

/-- A length, a subtype and bytes. The legacy subtype has a second length before its bytes. -/
def binaryPayload : Read (UInt8 × List UInt8) := do
  let start ← offset
  let outer ← length 0
  let subtype ← onInput Replay.byte
  if subtype = 2 then
    let inner ← onInput Replay.int32
    if inner.toInt < 0 ∨ inner.toInt ≠ outer.toInt - 4 then
      throw (.malformedValue start (.legacyLength inner.toInt outer.toInt))
    return (subtype, ← onInput (Replay.bytes inner.toInt.toNat))
  return (subtype, ← onInput (Replay.bytes outer.toInt.toNat))

def readDouble : Read Binary64 :=
  readScalar "read_double" .double (return ⟨UInt64.ofNat (← onInput (Replay.natural 8))⟩)

def readString : Read String := readScalar "read_string" .string stringPayload

def readBinary : Read (UInt8 × List UInt8) := readScalar "read_binary" .binary binaryPayload

def readUndefined : Read Unit := readScalar "read_undefined" .undefined (pure ())

def readObjectId : Read ObjectId := readScalar "read_object_id" .objectId objectIdPayload

def readBoolean : Read Bool := readScalar "read_boolean" .boolean booleanPayload

/-- Reads a moment, in milliseconds. -/
def readDateTime : Read Int64 := readScalar "read_date_time" .dateTime (onInput Replay.int64)

def readNull : Read Unit := readScalar "read_null" .null (pure ())

def readRegularExpression : Read (String × String) :=
  readScalar "read_regular_expression" .regularExpression do
    let pattern ← regexPart
    return (pattern, ← regexPart)

/-- Reads a database pointer: its collection and its identifier. -/
def readDbPointer : Read (String × ObjectId) :=
  readScalar "read_db_pointer" .dbPointer do
    let collection ← stringPayload
    return (collection, ← objectIdPayload)

def readJavaScript : Read String := readScalar "read_javascript" .javaScript stringPayload

def readSymbol : Read String := readScalar "read_symbol" .symbol stringPayload

/-- Reads the code of code with a scope; the scope document comes next. -/
def readScopedCode : Read String := do
  beginValue "read_javascript_with_scope" .scopedCode
  openContainer .scopedCode
  let code ← stringPayload
  modify fun r => { r with state := .scopeDocument }
  return code

/-- Reads an integer of 32 bits. -/
def readInt32 : Read Int32 := readScalar "read_int32" .int32 (onInput Replay.int32)

/-- Reads a timestamp: its time and its increment, of which the increment is the low word. -/
def readTimestamp : Read (UInt32 × UInt32) :=
  readScalar "read_timestamp" .timestamp do
    let word ← onInput (Replay.natural 8)
    return (UInt32.ofNat (word / UInt32.size), UInt32.ofNat word)

/-- Reads an integer of 64 bits. -/
def readInt64 : Read Int64 := readScalar "read_int64" .int64 (onInput Replay.int64)

def readDecimal128 : Read Decimal128 := readScalar "read_decimal128" .decimal128 decimal128Payload

def readMinKey : Read Unit := readScalar "read_min_key" .minKey (pure ())

def readMaxKey : Read Unit := readScalar "read_max_key" .maxKey (pure ())

/-- Takes a bookmark here. -/
def bookmark : Read Bookmark := do
  ensureOpen
  let r ← get
  let (pin, input) := r.input.pin
  set { r with input }
  return ⟨r.serial, pin, r.state, r.currentType, r.currentName, r.frames⟩

/-- Goes back to a bookmark that this reader has taken. -/
def returnTo (b : Bookmark) : Read Unit := do
  ensureOpen
  let r ← get
  let stale {α : Type} (cause : Staleness) : Read α := do
    record (Log.Event.staleBookmark.entry
      [("position", toString b.pin.position), ("reason", cause.reason)])
    throw (.staleBookmark b.pin.position cause)
  if b.reader ≠ r.serial then stale .otherReader
  match r.input.rewind? b.pin.position with
  | none => stale .notBuffered
  | some input =>
    set { r with
      input, state := b.state, currentType := b.currentType, currentName := b.currentName, frames := b.frames }

end Reader

end Aggregation.Wire
