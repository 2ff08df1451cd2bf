/-! Transports. A source hands out bytes in pieces, may interrupt a read any number of times, and in the end
either has no more bytes or fails for good. A sink takes bytes, perhaps only up to a number. -/

namespace Aggregation.Wire

/-- What one read of a source does: it hands out at least one byte, or it is interrupted. -/
inductive Delivery where
  | chunk (first : UInt8) (rest : List UInt8)
  | interrupted
  deriving Repr

/-- What every read does after the deliveries. -/
inductive Ending where
  | ends
  | fails (message : String)
  deriving DecidableEq, Repr

/-- A source by what its reads will do. -/
structure Source where
  deliveries : List Delivery
  ending : Ending
  deriving Repr

namespace Source

/-- The number of bytes that one delivery brings. -/
def deliverySize : Delivery → Nat
  | .chunk _ rest => rest.length + 1
  | .interrupted => 0

/-- The number of bytes that are still to be handed out. -/
def remaining (s : Source) : Nat :=
  s.deliveries.foldr (fun delivery total => deliverySize delivery + total) 0

/-- Pieces of at most `most` bytes, each after an interruption if there are any. -/
def pieces (most : Nat) (interrupts : Bool) : Nat → List UInt8 → List Delivery
  | 0, _ => []
  | _ + 1, [] => []
  | fuel + 1, b :: rest =>
    let delivery := Delivery.chunk b (rest.take (most - 1))
    let later := pieces most interrupts fuel (rest.drop (most - 1))
    if interrupts then .interrupted :: delivery :: later else delivery :: later

/-- The most bytes that one read asks for. -/
def readSize : Nat := 8192

/-- A source over bytes. One read brings at most `most` bytes, and with `failure` the reads fail from an
offset on. A read that may bring no byte is the end of the source, unless it fails. -/
def ofBytes (bytes : List UInt8) (most : Nat := readSize) (failure : Option (Nat × String) := none)
    (interrupts : Bool := false) : Source :=
  let most := min most readSize
  let supply := if most = 0 then [] else bytes
  match failure with
  | some (offset, message) =>
    if offset ≤ supply.length then
      ⟨pieces most interrupts offset (supply.take offset), .fails message⟩
    else ⟨pieces most interrupts supply.length supply, .ends⟩
  | none => ⟨pieces most interrupts supply.length supply, .ends⟩

end Source

/-- A sink: what it has taken, and how many bytes it takes in all before it fails, if it does. -/
structure Sink where
  received : Array UInt8 := #[]
  refusal : Option (Nat × String) := none
  deriving Repr, Inhabited

/-- Takes bytes, or as many as the sink still takes and then fails. -/
def Sink.write (s : Sink) (bytes : Array UInt8) : Except String Unit × Sink :=
  match s.refusal with
  | none => (.ok (), { s with received := s.received ++ bytes })
  | some (capacity, message) =>
    let room := capacity - s.received.size
    if bytes.size ≤ room then (.ok (), { s with received := s.received ++ bytes })
    else (.error message, { s with received := s.received ++ bytes.extract 0 room })

end Aggregation.Wire
