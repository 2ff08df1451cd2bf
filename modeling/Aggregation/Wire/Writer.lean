import Aggregation.Log
import Aggregation.Text.Utf8
import Aggregation.Wire.Error
import Aggregation.Wire.FrameKind
import Aggregation.Wire.Limits
import Aggregation.Wire.Transport

/-! A forward writer of the binary format. A top-level document is put together before the sink sees any of it:
a container opens with four bytes of zero, and its length is set into them when it closes. A document that is
never completed never reaches the sink. -/

namespace Aggregation.Wire

inductive WriterState where
  | initial
  | name
  | value
  | scopeDocument
  /-- A top-level document has been completed and handed to the sink. -/
  | done
  | closed
  deriving DecidableEq, Repr, Inhabited

/-- The name of a state in messages. -/
def WriterState.label : WriterState → String
  | .initial => "Initial"
  | .name => "Name"
  | .value => "Value"
  | .scopeDocument => "ScopeDocument"
  | .done => "Done"
  | .closed => "Closed"

/-- A container that is being written. -/
structure OpenFrame where
  kind : FrameKind
  /-- Where its length stands among the pending bytes. -/
  start : Nat
  /-- The index of the next item of an array. -/
  index : Nat
  deriving DecidableEq, Repr

/-- A writer. The innermost container comes first. -/
structure Writer where
  sink : Sink
  /-- Whether the sink has been given up. -/
  isReleased : Bool := false
  limits : Limits
  state : WriterState := .initial
  /-- The bytes of the document that is being put together. -/
  pending : Array UInt8 := #[]
  /-- The number of bytes that the sink has taken. -/
  flushed : Nat := 0
  pendingName : Option String := none
  frames : List OpenFrame := []
  /-- What has been logged, oldest first. -/
  log : List Log.Entry := []
  deriving Repr

/-- A step of a writer. A failing step leaves the writer as far as it got. -/
abbrev Write (α : Type) := ExceptT WireError (StateM Writer) α

namespace Writer

def ofSink (sink : Sink) (limits : Limits := {}) : Writer := { sink, limits }

/-- The offset of the next byte to be written. -/
def position (w : Writer) : Nat := w.flushed + w.pending.size

/-- Whether nothing may be written any more. -/
def isClosed (w : Writer) : Bool := w.state = .closed || w.isReleased

/-- Gives up the sink, if it is still held, and refuses every later step. An incomplete document is lost. -/
def close (w : Writer) : Writer :=
  let log :=
    if w.isReleased then w.log
    else w.log ++
      [Log.Event.transportReleased.entry [("side", "writer"), ("position", toString w.flushed)]]
  { w with isReleased := true, state := .closed, pending := #[], pendingName := none, frames := [], log }

/-- Gives the sink back, if it is still held. -/
def release (w : Writer) : Option Sink × Writer :=
  (if w.isReleased then none else some w.sink,
    { w with isReleased := true, state := .closed, pending := #[] })

end Writer

namespace Write

def ensureOpen : Write Unit := do if (← get).isClosed then throw .closed

/-- Fails because the state does not allow an operation. -/
def refuse {α : Type} (operation : String) : Write α := do throw (.invalidState operation (← get).state.label)

/-- Adds bytes to the document. -/
def put (bytes : List UInt8) : Write Unit := modify fun w => { w with pending := w.pending.appendList bytes }

/-- The spelling of a name in the message that refuses it: a NUL is shown as an escape. -/
def shown (name : String) : String :=
  String.ofList (name.toList.flatMap fun c => if c = '\x00' then ['\\', '0'] else [c])

/-- Fails if text that ends with a NUL holds one. -/
def refuseNul (text : String) : Write Unit := do
  if text.toList.contains '\x00' then throw (.invalidName (shown text))

/-- Adds text and a NUL. -/
def putCstring (text : String) : Write Unit := put (Utf8.encode text ++ [0])

/-- Adds text with its length before it and a NUL after it; the length counts the NUL. -/
def putString (text : String) : Write Unit := do
  let bytes := Utf8.encode text
  put (littleEndianBytes 4 (bytes.length + 1) ++ bytes ++ [0])

/-- The name of the next element: the next index in an array, the name that has been written in a document. -/
def takeName (operation : String) : Write String := do
  let w ← get
  match w.frames with
  | [] => refuse operation
  | frame :: frames =>
    if frame.kind = .array then
      set { w with frames := { frame with index := frame.index + 1 } :: frames }
      return toString frame.index
    else
      match w.pendingName with
      | none => refuse operation
      | some name =>
        set { w with pendingName := none }
        return name

/-- Adds the tag and the name of an element, if a value may be written. -/
def beginValue (operation : String) (type : ElementType) : Write Unit := do
  ensureOpen
  if (← get).state ≠ .value then refuse operation
  let name ← takeName operation
  put [type.tag]
  putCstring name

/-- Hands the document to the sink. -/
def flush : Write Unit := do
  let w ← get
  let (result, sink) := w.sink.write w.pending
  match result with
  | .error message =>
    set { w with sink }
    throw (.io message)
  | .ok () => set { w with sink, flushed := w.flushed + w.pending.size, pending := #[] }

/-- Goes on to what may follow a value. At the top level the document is complete. -/
def endValue : Write Unit := do
  match (← get).frames with
  | [] =>
    flush
    modify fun w => { w with state := .done }
  | frame :: _ =>
    modify fun w => { w with state := if frame.kind = .array then .value else .name }

/-- Opens a container, with zeros where its length will stand. -/
def openContainer (kind : FrameKind) : Write Unit := do
  let w ← get
  let depth := w.frames.length + 1
  if w.limits.maxNestingDepth < depth then throw (.nestingTooDeep depth w.limits.maxNestingDepth)
  put [0, 0, 0, 0]
  modify fun w' => { w' with frames := ⟨kind, w.pending.size, 0⟩ :: w'.frames }

/-- Puts bytes in the place of those at an index and after. -/
def patch (bytes : Array UInt8) (start : Nat) : List UInt8 → Array UInt8
  | [] => bytes
  | b :: rest => patch (bytes.setIfInBounds start b) (start + 1) rest

/-- Closes the innermost container and sets its length. A negative limit is none. -/
def closeContainer : Write FrameKind := do
  let w ← get
  match w.frames with
  | [] => refuse "close_container"
  | frame :: frames =>
    let size := w.pending.size - frame.start
    let limit := w.limits.maxDocumentSize
    if 0 ≤ limit ∧ limit < size then
      set { w with frames }
      throw (.documentTooLarge size limit)
    set { w with frames, pending := patch w.pending frame.start (littleEndianBytes 4 size) }
    return frame.kind

end Write

namespace Writer

open Write

def writeName (name : String) : Write Unit := do
  ensureOpen
  if (← get).state ≠ .name then refuse "write_name"
  refuseNul name
  modify fun w => { w with pendingName := some name, state := .value }

/-- Opens a document: at the top level, as the scope of code, or as the next value. -/
def startDocument : Write Unit := do
  ensureOpen
  let kind ← match (← get).state with
    | .initial | .done => pure FrameKind.document
    | .scopeDocument => pure FrameKind.scopeDocument
    | .value => do
      beginValue "write_start_document" .document
      pure FrameKind.document
    | _ => refuse "write_start_document"
  openContainer kind
  modify fun w => { w with state := .name }

/-- Completes a document, and the code around it if it is a scope. -/
def endDocument : Write Unit := do
  ensureOpen
  let w ← get
  match w.frames.head?.map OpenFrame.kind with
  | some .document | some .scopeDocument => pure ()
  | _ => throw (.prematureEnd "write_end_document" .notADocument)
  if w.state ≠ .name then throw (.prematureEnd "write_end_document" .nameWithoutValue)
  put [0]
  let closed ← closeContainer
  if closed = .scopeDocument then discard closeContainer
  endValue

def startArray : Write Unit := do
  beginValue "write_start_array" .array
  openContainer .array
  modify fun w => { w with state := .value }

def endArray : Write Unit := do
  ensureOpen
  if (← get).frames.head?.map OpenFrame.kind ≠ some .array then
    throw (.prematureEnd "write_end_array" .notAnArray)
  put [0]
  discard closeContainer
  endValue

def writeScalar (operation : String) (type : ElementType) (payload : Write Unit) : Write Unit := do
  beginValue operation type
  payload
  endValue

def writeDouble (x : Binary64) : Write Unit :=
  writeScalar "write_double" .double (put (littleEndianBytes 8 x.bits.toNat))

def writeString (s : String) : Write Unit := writeScalar "write_string" .string (putString s)

/-- The payload of a binary. The legacy subtype has a second length before its bytes. -/
def putBinary (subtype : UInt8) (bytes : List UInt8) : Write Unit :=
  if subtype = 2 then
    put (littleEndianBytes 4 (bytes.length + 4) ++ [subtype] ++ littleEndianBytes 4 bytes.length ++ bytes)
  else put (littleEndianBytes 4 bytes.length ++ [subtype] ++ bytes)

def writeBinary (subtype : UInt8) (bytes : List UInt8) : Write Unit :=
  writeScalar "write_binary" .binary (putBinary subtype bytes)

def writeUndefined : Write Unit := writeScalar "write_undefined" .undefined (pure ())

def writeObjectId (id : ObjectId) : Write Unit := writeScalar "write_object_id" .objectId (put id.bytes)

def writeBoolean (b : Bool) : Write Unit :=
  writeScalar "write_boolean" .boolean (put [if b then 1 else 0])

def writeDateTime (millis : Int64) : Write Unit :=
  writeScalar "write_date_time" .dateTime (put (littleEndianBytes 8 millis.toUInt64.toNat))

def writeNull : Write Unit := writeScalar "write_null" .null (pure ())

def writeRegularExpression (pattern options : String) : Write Unit :=
  writeScalar "write_regular_expression" .regularExpression do
    refuseNul pattern
    putCstring pattern
    refuseNul options
    putCstring options

def writeDbPointer (collection : String) (id : ObjectId) : Write Unit :=
  writeScalar "write_db_pointer" .dbPointer do
    putString collection
    put id.bytes

def writeJavaScript (code : String) : Write Unit :=
  writeScalar "write_javascript" .javaScript (putString code)

def writeSymbol (name : String) : Write Unit := writeScalar "write_symbol" .symbol (putString name)

/-- Writes the code of code with a scope; the scope document has to come next. -/
def writeScopedCode (code : String) : Write Unit := do
  beginValue "write_javascript_with_scope" .scopedCode
  openContainer .scopedCode
  putString code
  modify fun w => { w with state := .scopeDocument }

/-- Writes an integer of 32 bits. -/
def writeInt32 (n : Int32) : Write Unit :=
  writeScalar "write_int32" .int32 (put (littleEndianBytes 4 n.toUInt32.toNat))

def writeTimestamp (time increment : UInt32) : Write Unit :=
  writeScalar "write_timestamp" .timestamp
    (put (littleEndianBytes 8 (time.toNat * UInt32.size + increment.toNat)))

/-- Writes an integer of 64 bits. -/
def writeInt64 (n : Int64) : Write Unit :=
  writeScalar "write_int64" .int64 (put (littleEndianBytes 8 n.toUInt64.toNat))

def writeDecimal128 (d : Decimal128) : Write Unit :=
  writeScalar "write_decimal128" .decimal128 (put d.bytes)

def writeMinKey : Write Unit := writeScalar "write_min_key" .minKey (pure ())

def writeMaxKey : Write Unit := writeScalar "write_max_key" .maxKey (pure ())

end Writer

end Aggregation.Wire
