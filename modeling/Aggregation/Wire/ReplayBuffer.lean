import Aggregation.Wire.Error
import Aggregation.Wire.Transport
import Aggregation.Text.Utf8

/-! Forward reading with replay. The source is only read onwards; every byte that it has handed out is kept until
no pin can need it any more, so that the cursor can go back without asking the source again. Offsets are
counted from the start of the stream: `base` is the offset of the first kept byte, and the next unread byte is
`cursor` bytes after it. -/

namespace Aggregation.Wire

/-- An offset that something may return to. -/
structure Pin where
  serial : Nat
  position : Nat
  deriving DecidableEq, Repr

/-- The bytes kept from a source, and the place of the next unread one. -/
structure ReplayBuffer where
  /-- The source; none once it has been released. -/
  source : Option Source
  buffer : Array UInt8 := #[]
  cursor : Nat := 0
  base : Nat := 0
  pins : List Pin := []
  nextPin : Nat := 0
  deriving Repr

/-- A step that reads from a buffer. A failing step leaves the buffer as far as it got. -/
abbrev Replay (α : Type) := ExceptT WireError (StateM ReplayBuffer) α

namespace ReplayBuffer

/-- The offset of the next unread byte. -/
def position (b : ReplayBuffer) : Nat := b.base + b.cursor

/-- The offset after the last kept byte. -/
def frontier (b : ReplayBuffer) : Nat := b.base + b.buffer.size

/-- The number of kept bytes that are unread. -/
def available (b : ReplayBuffer) : Nat := b.buffer.size - b.cursor

/-- Whether the source has been given up. -/
def isReleased (b : ReplayBuffer) : Bool := b.source.isNone

/-- The number of unread bytes, kept or still to be handed out. -/
def supply (b : ReplayBuffer) : Nat := b.available + (b.source.map Source.remaining).getD 0

/-- Keeps the bytes from the current position on until the pin is removed. -/
def pin (b : ReplayBuffer) : Pin × ReplayBuffer :=
  let pin := ⟨b.nextPin, b.position⟩
  (pin, { b with pins := b.pins ++ [pin], nextPin := b.nextPin + 1 })

def unpin (b : ReplayBuffer) (serial : Nat) : ReplayBuffer :=
  { b with pins := b.pins.filter (·.serial != serial) }

/-- Moves the cursor to an offset that is still kept. -/
def rewind? (b : ReplayBuffer) (position : Nat) : Option ReplayBuffer :=
  if position < b.base ∨ b.frontier < position then none else some { b with cursor := position - b.base }

/-- The least offset that a pin or the cursor holds. -/
def oldest (b : ReplayBuffer) : Nat := b.pins.foldl (fun least pin => min least pin.position) b.position

/-- Forgets the bytes before the oldest offset that is held. -/
def compact (b : ReplayBuffer) : ReplayBuffer :=
  let discard := b.oldest - b.base
  { b with
    buffer := b.buffer.extract discard b.buffer.size
    base := b.base + discard
    cursor := b.cursor - discard }

/-- Gives up the source and everything kept. -/
def release (b : ReplayBuffer) : ReplayBuffer := { b with source := none, buffer := #[], cursor := 0, pins := [] }

/-- Takes deliveries until the buffer has a number of bytes. -/
def receive (target : Nat) : List Delivery → Array UInt8 → Array UInt8 × List Delivery
  | [], buffer => (buffer, [])
  | delivery :: later, buffer =>
    if target ≤ buffer.size then (buffer, delivery :: later)
    else
      match delivery with
      | .interrupted => receive target later buffer
      | .chunk first rest => receive target later (buffer.push first ++ rest)

/-- Takes deliveries until one brings a NUL. -/
def receiveNul : List Delivery → Array UInt8 → Array UInt8 × List Delivery
  | [], buffer => (buffer, [])
  | .interrupted :: later, buffer => receiveNul later buffer
  | .chunk first rest :: later, buffer =>
    let buffer := buffer.push first ++ rest
    if first = 0 ∨ rest.contains 0 then (buffer, later) else receiveNul later buffer

/-- The index of the first NUL among `count` bytes from an index on. -/
def nulIndex? (buffer : Array UInt8) : Nat → Nat → Option Nat
  | 0, _ => none
  | count + 1, i => if buffer[i]? = some 0 then some i else nulIndex? buffer count (i + 1)

end ReplayBuffer

namespace Replay

open ReplayBuffer

/-- Fails where the bytes ran out. -/
def outOfBytes {α : Type} : Replay α := do throw (.unexpectedEnd (← get).frontier)

/-- Fails as the source does after its last delivery, if it does. -/
def checkEnding : Ending → Replay Unit
  | .ends => pure ()
  | .fails message => throw (.io message)

/-- Tries to have `wanted` unread bytes, and says whether it has. -/
def fill (wanted : Nat) : Replay Bool := do
  let b ← get
  match b.source with
  | none => throw .closed
  | some source =>
    let target := b.cursor + wanted
    let (buffer, deliveries) := receive target source.deliveries b.buffer
    set { b with buffer, source := some { source with deliveries } }
    if target ≤ buffer.size then return true
    checkEnding source.ending
    return false

/-- Whether a byte is left; nothing is read past it. -/
def hasRemaining : Replay Bool := fill 1

/-- Moves the cursor on over kept bytes. -/
def advance (count : Nat) : Replay Unit := modify fun b => { b with cursor := b.cursor + count }

def bytes (count : Nat) : Replay (List UInt8) := do
  unless ← fill count do outOfBytes
  let b ← get
  advance count
  return (b.buffer.extract b.cursor (b.cursor + count)).toList

/-- Passes over the next `count` bytes. -/
def skip (count : Nat) : Replay Unit := do
  unless ← fill count do outOfBytes
  advance count

def byte : Replay UInt8 := do
  unless ← fill 1 do outOfBytes
  let b ← get
  advance 1
  return b.buffer[b.cursor]?.getD 0

/-- The next `count` bytes as a number, least significant first. -/
def natural (count : Nat) : Replay Nat := return littleEndian (← bytes count)

/-- The next four bytes as a signed number. -/
def int32 : Replay Int32 := return (UInt32.ofNat (← natural 4)).toInt32

/-- The next eight bytes as a signed number. -/
def int64 : Replay Int64 := return (UInt64.ofNat (← natural 8)).toInt64

/-- The bytes up to the next NUL, which is passed over. -/
def cstring : Replay (List UInt8) := do
  let b ← get
  if (nulIndex? b.buffer b.available b.cursor).isNone then
    match b.source with
    | none => throw .closed
    | some source =>
      let (buffer, deliveries) := receiveNul source.deliveries b.buffer
      set { b with buffer, source := some { source with deliveries } }
  let b ← get
  match nulIndex? b.buffer b.available b.cursor with
  | some i =>
    set { b with cursor := i + 1 }
    return (b.buffer.extract b.cursor i).toList
  | none =>
    if let some source := b.source then checkEnding source.ending
    outOfBytes

end Replay

end Aggregation.Wire
