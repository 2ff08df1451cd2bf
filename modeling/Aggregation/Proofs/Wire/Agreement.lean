import Aggregation.Proofs.Wire.Forms
import Aggregation.Proofs.Wire.Windows

/-! Two readers over one feed. They may keep different parts of it and hold different pins; if they show the same, then
a step gives the same result on both and leaves them showing the same. -/

namespace Aggregation.Wire

open Stepping

/-- What a reader is opened over. -/
structure Opening where
  feed : Feed
  serial : Nat
  limits : Limits

namespace Reader

/-- What can be seen of a reader. -/
structure Face where
  position : Nat
  state : ReaderState
  currentType : Option ElementType
  currentName : Option String
  frames : List Frame
  deriving DecidableEq, Repr

def face (r : Reader) : Face := ⟨r.position, r.state, r.currentType, r.currentName, r.frames⟩

/-- The pins of a reader, and the serial of the next. -/
def pinning (r : Reader) : List Pin × Nat := (r.input.pins, r.input.nextPin)

/-- An open reader over what it was opened over, with certain pins. -/
structure Over (o : Opening) (pins : List Pin × Nat) (r : Reader) : Prop where
  window : r.input.Window o.feed
  serial_eq : r.serial = o.serial
  limits_eq : r.limits = o.limits
  pinning_eq : r.pinning = pins
  state_ne : r.state ≠ .closed

/-- Two readers show the same: what a step may look at before it reads. -/
structure Alike (r q : Reader) : Prop where
  face_eq : r.face = q.face
  limits_eq : r.limits = q.limits
  supply_eq : r.supply = q.supply

section

variable {r q : Reader}

theorem Alike.position_eq (h : Alike r q) : r.position = q.position := congrArg Face.position h.face_eq

theorem Alike.state_eq (h : Alike r q) : r.state = q.state := congrArg Face.state h.face_eq

theorem Alike.currentType_eq (h : Alike r q) : r.currentType = q.currentType := congrArg Face.currentType h.face_eq

theorem Alike.currentName_eq (h : Alike r q) : r.currentName = q.currentName := congrArg Face.currentName h.face_eq

theorem Alike.frames_eq (h : Alike r q) : r.frames = q.frames := congrArg Face.frames h.face_eq

theorem Alike.segments_eq (h : Alike r q) : r.segments = q.segments := by
  rw [segments, segments, h.frames_eq]

theorem Alike.containerPath_eq (h : Alike r q) : r.containerPath = q.containerPath := by
  rw [containerPath, containerPath, h.segments_eq]

theorem Alike.elementPath_eq (h : Alike r q) (leaf : String) : r.elementPath leaf = q.elementPath leaf := by
  rw [elementPath, elementPath, h.segments_eq]

end

/-- Two open readers over the same that show the same. -/
structure Agree (o : Opening) (pins pins' : List Pin × Nat) (r q : Reader) : Prop where
  left : r.Over o pins
  right : q.Over o pins'
  face_eq : r.face = q.face

section

variable {o : Opening} {pins pins' : List Pin × Nat} {r q : Reader}

theorem Over.isClosed_eq (h : r.Over o pins) : r.isClosed = false := by
  simp [isClosed, h.window.isReleased_eq, h.state_ne]

theorem Over.reaches (h : r.Over o pins) {input : ReplayBuffer} {position : Nat}
    (hinput : ReplayBuffer.Reaches o.feed r.input position input) : Over o pins { r with input } where
  window := hinput.window
  serial_eq := h.serial_eq
  limits_eq := h.limits_eq
  pinning_eq := by simp [pinning, hinput.pins_eq, hinput.nextPin_eq, ← h.pinning_eq]
  state_ne := h.state_ne

theorem Over.shows (h : r.Over o pins) {state : ReaderState} (hstate : state ≠ .closed) (type : Option ElementType)
    (name : Option String) (frames : List Frame) :
    Over o pins { r with state, currentType := type, currentName := name, frames } :=
  ⟨h.window, h.serial_eq, h.limits_eq, h.pinning_eq, hstate⟩

theorem Over.recorded (h : r.Over o pins) (log : List Log.Entry) : Over o pins { r with log } :=
  ⟨h.window, h.serial_eq, h.limits_eq, h.pinning_eq, h.state_ne⟩

theorem Agree.position_eq (h : Agree o pins pins' r q) : r.position = q.position := congrArg Face.position h.face_eq

theorem Agree.alike (h : Agree o pins pins' r q) : Alike r q where
  face_eq := h.face_eq
  limits_eq := h.left.limits_eq.trans h.right.limits_eq.symm
  supply_eq := by
    have hposition := h.position_eq
    rw [position, position] at hposition
    rw [supply, supply, h.left.window.supply_eq, h.right.window.supply_eq, hposition]

/-- Where both inputs come to one position, the readers still show the same. -/
theorem Agree.reaches (h : Agree o pins pins' r q) {b c : ReplayBuffer} {n m : Nat}
    (hb : ReplayBuffer.Reaches o.feed r.input n b) (hc : ReplayBuffer.Reaches o.feed q.input m c) (hn : n = m) :
    Agree o pins pins' { r with input := b } { q with input := c } where
  left := h.left.reaches hb
  right := h.right.reaches hc
  face_eq := by
    simp only [face, position, hb.position_eq, hc.position_eq, hn, h.alike.state_eq, h.alike.currentType_eq,
      h.alike.currentName_eq, h.alike.frames_eq]

/-- The outcome of a step on the input is known from the position, so it is the same on both inputs. -/
theorem Agree.onInput (h : Agree o pins pins' r q) {α : Type} {step : Replay α} (hstep : step.Steady) :
    Matches (Agree o pins pins') (Read.onInput step) (Read.onInput step) r q := by
  obtain ⟨result, next, -, hsettles⟩ := hstep.settles o.feed r.position
  obtain ⟨b, hr, hb⟩ := hsettles r.input h.left.window rfl
  obtain ⟨c, hq, hc⟩ := hsettles q.input h.right.window h.position_eq.symm
  have hleft : (Read.onInput step).run.run r = (result, { r with input := b }) := by rw [Read.onInput_run, hr]
  have hright : (Read.onInput step).run.run q = (result, { q with input := c }) := by rw [Read.onInput_run, hq]
  rw [Matches, hleft, hright]
  exact ⟨rfl, h.reaches hb hc rfl⟩

theorem Agree.shows (h : Agree o pins pins' r q) {state : ReaderState} (hstate : state ≠ .closed)
    (currentType : Option ElementType) (currentName : Option String) (frames : List Frame) :
    Agree o pins pins' { r with state, currentType, currentName, frames }
      { q with state, currentType, currentName, frames } := by
  refine ⟨h.left.shows hstate _ _ _, h.right.shows hstate _ _ _, ?_⟩
  have hposition := h.position_eq
  rw [position, position] at hposition
  simp only [face, position, hposition]

end

end Reader

namespace Read

open Reader

theorem segment_eq {r q : Reader} (h : Alike r q) : segment r = segment q := by
  rw [segment, segment, h.frames_eq, h.currentName_eq]

/-- The name of an element, if it is looked for in the input at all, is what can be read up to a NUL. -/
theorem offendingName_run (r : Reader) :
    offendingName.run.run r = match r.frames with
      | [] => (.ok "?", r)
      | frame :: _ =>
        match frame.kind with
        | .array => (.ok (toString frame.index), r)
        | .scopedCode => (.ok "?", r)
        | _ =>
          (.ok ((((onInput Replay.cstring).run.run r).1.toOption.map Utf8.lossy).getD "?"),
            ((onInput Replay.cstring).run.run r).2) := by
  rw [onInput_run]
  show offendingName r = _
  rw [offendingName]
  cases r.frames with
  | nil => rfl
  | cons frame frames =>
      obtain ⟨kind, _⟩ := frame
      rcases hname : Replay.cstring.run.run r.input with ⟨e | name, input⟩
      · have hname : Replay.cstring r.input = (.error e, input) := hname
        cases kind <;> simp [hname, Except.toOption]
      · have hname : Replay.cstring r.input = (.ok name, input) := hname
        cases kind <;> simp [hname, Except.toOption]

end Read

end Aggregation.Wire
