import Aggregation.Wire.Decoding
import Aggregation.Wire.Encoding

/-! Documents back to back. A stream ends with its bytes or at the first error, which is kept, and in either case
gives up its source. One document alone is a stream that must end after it. -/

namespace Aggregation.Wire

structure DocumentStream where
  reader : Reader
  error : Option WireError := none
  isFinished : Bool := false
  deriving Repr

namespace DocumentStream

def ofSource (source : Source) (limits : Limits := {}) : DocumentStream :=
  { reader := .ofSource source limits }

def finish (s : DocumentStream) (error : Option WireError) : DocumentStream :=
  { reader := s.reader.close, error, isFinished := true }

def next (s : DocumentStream) : Option Document × DocumentStream :=
  if s.isFinished then (none, s)
  else
    match Reader.isAtEnd.run.run s.reader with
    | (.ok true, reader) => (none, { s with reader }.finish none)
    | (.error e, reader) => (none, { s with reader }.finish (some e))
    | (.ok false, reader) =>
      match Reader.readDocument.run.run reader with
      | (.ok d, reader) => (some d, { s with reader })
      | (.error e, reader) => (none, { s with reader }.finish (some e))

/-- The documents up to a number of them. -/
def take : Nat → DocumentStream → List Document × DocumentStream
  | 0, s => ([], s)
  | count + 1, s =>
    match s.next with
    | (none, s) => ([], s)
    | (some d, s) =>
      let (rest, s) := take count s
      (d :: rest, s)

/-- The documents up to the end. Each takes bytes, so there are no more than bytes; one more step notices the end. -/
def collect (s : DocumentStream) : List Document × DocumentStream := s.take (s.reader.supply + 1)

end DocumentStream

/-- What a run on a writer leaves behind: its result, the bytes that the sink has, and what was logged. -/
structure Encoded (α : Type) where
  result : Except WireError α
  bytes : List UInt8
  log : List Log.Entry
  deriving Repr

/-- What a run on a reader leaves behind: its result, and what was logged. -/
structure Decoded (α : Type) where
  result : Except WireError α
  log : List Log.Entry
  deriving Repr

/-- Writes documents back to back and gives up the sink. The result is the number of bytes written. -/
def encodeStream (documents : List Document) (sink : Sink := {}) (limits : Limits := {}) : Encoded Nat :=
  let (result, writer) := (Writer.writeDocuments documents).run.run (.ofSink sink limits)
  let closed := writer.close
  ⟨result.map fun _ => writer.position, closed.sink.received.toList, closed.log⟩

/-- Reads the documents of a source up to its end and gives it up. -/
def decodeStream (source : Source) (limits : Limits := {}) : Decoded (List Document) :=
  let (documents, s) := (DocumentStream.ofSource source limits).collect
  ⟨match s.error with
    | some e => .error e
    | none => .ok documents, s.reader.log⟩

def encode (d : Document) : Encoded (List UInt8) :=
  let (result, writer) := (Writer.writeDocument d).run.run (.ofSink {})
  let closed := writer.close
  let bytes := closed.sink.received.toList
  ⟨result.map fun _ => bytes, bytes, closed.log⟩

/-- Reads a document that has to end where the bytes end. -/
def readAlone : Read Document := do
  let d ← Reader.readDocument
  let stop ← Read.offset
  unless ← Reader.isAtEnd do throw (.malformedValue stop .trailingBytes)
  return d

def decode (bytes : List UInt8) : Decoded Document :=
  let (result, reader) := readAlone.run.run (.ofSource (.ofBytes bytes))
  ⟨result, reader.close.log⟩

end Aggregation.Wire
