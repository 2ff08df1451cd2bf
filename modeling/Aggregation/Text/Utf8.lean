/-! Text as bytes. A string has one encoding, and `decode?` accepts exactly the encodings; `lossy` reads any
bytes, putting the replacement character for each longest piece that begins a character and does not
complete one. -/

namespace Aggregation.Utf8

def encode (text : String) : List UInt8 := text.toByteArray.data.toList

/-- The string whose encoding is given. -/
def decode? (bytes : List UInt8) : Option String := String.fromUTF8? ⟨bytes.toArray⟩

theorem decode?_eq_some_iff {bytes : List UInt8} {text : String} :
    decode? bytes = some text ↔ encode text = bytes := by
  unfold decode? encode String.fromUTF8?
  constructor
  · intro h
    split at h
    · cases h; rfl
    · cases h
  · rintro rfl
    have h : (ByteArray.mk text.toByteArray.data.toList.toArray) = text.toByteArray := by
      simp
    rw [h, dif_pos text.isValidUTF8]
    rfl

/-- The end of a character that has begun: how many bytes are missing, the bounds on the next one, and the
value so far. -/
structure Pending where
  missing : Nat
  low : UInt8
  high : UInt8
  value : Nat

/-- What a first byte begins: a whole character, a longer one, or none. -/
inductive Start where
  | whole (c : Char)
  | begun (p : Pending)
  | stray

/-- Reads a first byte. The bounds on the second byte keep out overlong forms, surrogates and values past
the last character. -/
def start (b : UInt8) : Start :=
  if b < 0x80 then .whole (Char.ofNat b.toNat)
  else if b < 0xC2 then .stray
  else if b < 0xE0 then .begun ⟨1, 0x80, 0xBF, b.toNat - 0xC0⟩
  else if b = 0xE0 then .begun ⟨2, 0xA0, 0xBF, 0⟩
  else if b = 0xED then .begun ⟨2, 0x80, 0x9F, 0xD⟩
  else if b < 0xF0 then .begun ⟨2, 0x80, 0xBF, b.toNat - 0xE0⟩
  else if b = 0xF0 then .begun ⟨3, 0x90, 0xBF, 0⟩
  else if b < 0xF4 then .begun ⟨3, 0x80, 0xBF, b.toNat - 0xF0⟩
  else if b = 0xF4 then .begun ⟨3, 0x80, 0x8F, 4⟩
  else .stray

def replacement : Char := '\uFFFD'

/-- Reads bytes from the middle of a character, or from between characters. -/
def lossyFrom : Option Pending → List UInt8 → List Char
  | none, [] => []
  | some _, [] => [replacement]
  | none, b :: rest =>
    match start b with
    | .whole c => c :: lossyFrom none rest
    | .begun p => lossyFrom (some p) rest
    | .stray => replacement :: lossyFrom none rest
  | some p, b :: rest =>
    if p.low ≤ b ∧ b ≤ p.high then
      let value := p.value * 64 + (b.toNat - 0x80)
      if p.missing ≤ 1 then Char.ofNat value :: lossyFrom none rest
      else lossyFrom (some ⟨p.missing - 1, 0x80, 0xBF, value⟩) rest
    else
      match start b with
      | .whole c => replacement :: c :: lossyFrom none rest
      | .begun q => replacement :: lossyFrom (some q) rest
      | .stray => replacement :: replacement :: lossyFrom none rest

def lossy (bytes : List UInt8) : String := String.ofList (lossyFrom none bytes)

end Aggregation.Utf8
