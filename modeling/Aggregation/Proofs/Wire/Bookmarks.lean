import Aggregation.Proofs.Wire.Clients
import Mathlib.Data.Set.Insert

/-! Going back. A bookmark that is still held is a place that its reader can return to, and from there everything is as
it was when the bookmark was taken: however many documents have been completed in between, the pin of the bookmark has
kept its bytes. -/

namespace Aggregation.Wire

open Stepping

/-- What the reader shows at the place of a bookmark. -/
def Bookmark.face (b : Bookmark) : Reader.Face := ⟨b.pin.position, b.state, b.currentType, b.currentName, b.frames⟩

/-- What a bookmark holds beside the serial of its pin. -/
def Bookmark.view (b : Bookmark) : Nat × Reader.Face := (b.reader, b.face)

namespace Reader

variable {o : Opening} {pins : List Pin × Nat} {r : Reader} {b : Bookmark}

/-- The bookmark that is taken here. -/
def mark (r : Reader) : Bookmark := ⟨r.serial, r.input.pin.1, r.state, r.currentType, r.currentName, r.frames⟩

/-- The reader after a bookmark has been taken. -/
def marked (r : Reader) : Reader := { r with input := r.input.pin.2 }

theorem view_mark (r : Reader) : r.mark.view = (r.serial, r.face) := rfl

theorem ensureOpen_run_of_over (h : r.Over o pins) : Read.ensureOpen.run.run r = (.ok (), r) := by
  simp only [Read.ensureOpen, run_bind, run_get, h.isClosed_eq]
  rfl

theorem bookmark_run (h : r.Over o pins) : bookmark.run.run r = (.ok r.mark, r.marked) := by
  rw [bookmark, run_bind_ok (ensureOpen_run_of_over h)]
  rfl

theorem Over.marked (h : r.Over o pins) : r.marked.Over o r.marked.pinning :=
  ⟨h.window.pin, h.serial_eq, h.limits_eq, rfl, h.state_ne⟩

theorem Over.dropBookmark (h : r.Over o pins) (b : Bookmark) :
    (r.dropBookmark b).Over o (r.dropBookmark b).pinning := by
  rw [Reader.dropBookmark]
  split
  · exact ⟨h.window.unpin _, h.serial_eq, h.limits_eq, rfl, h.state_ne⟩
  · exact ⟨h.window, h.serial_eq, h.limits_eq, rfl, h.state_ne⟩

theorem returnTo_run_of_rewind (h : r.Over o pins) (hb : b.reader = o.serial) {input : ReplayBuffer}
    (hrewind : r.input.rewind? b.pin.position = some input) :
    (returnTo b).run.run r = (.ok (), { r with
      input, state := b.state, currentType := b.currentType, currentName := b.currentName, frames := b.frames }) := by
  rw [returnTo, run_bind_ok (ensureOpen_run_of_over h), run_bind_ok (run_get r)]
  simp only [hb, h.serial_eq, ne_eq, not_true_eq_false, reduceIte, hrewind]
  exact run_set _ _

/-- A reader can go back to what it has pinned. -/
theorem returnTo_run (h : r.Over o pins) (hb : b.reader = o.serial) (hpin : b.pin ∈ r.input.pins)
    (hstate : b.state ≠ .closed) :
    ∃ r', (returnTo b).run.run r = (.ok (), r') ∧ r'.Over o pins ∧ r'.face = b.face := by
  obtain ⟨input, hrewind, hreaches⟩ := h.window.exists_rewind hpin
  refine ⟨_, returnTo_run_of_rewind h hb hrewind,
    (h.reaches hreaches).shows hstate b.currentType b.currentName b.frames, ?_⟩
  simp only [face, Bookmark.face, position, hreaches.position_eq]

/-- A reader that has refused a bookmark of another one. -/
def refusing (r : Reader) (b : Bookmark) : Reader :=
  { r with log := r.log ++ [Log.Event.staleBookmark.entry
      [("position", toString b.pin.position), ("reason", Staleness.otherReader.reason)]] }

/-- A reader refuses the bookmarks of others. -/
theorem returnTo_run_other (h : r.Over o pins) (hb : b.reader ≠ o.serial) :
    (returnTo b).run.run r = (.error (.staleBookmark b.pin.position .otherReader), r.refusing b) := by
  have hne : b.reader ≠ r.serial := h.serial_eq ▸ hb
  rw [returnTo, run_bind_ok (ensureOpen_run_of_over h), run_bind_ok (run_get r)]
  simp only [ne_eq, hne, not_false_eq_true, reduceIte]
  rfl

end Reader

namespace Client

variable {o : Opening} {c d : Client} {slot : Nat} {b : Bookmark}

/-- A slot holds a bookmark that the reader has taken itself. -/
def Owns (o : Opening) (c : Client) (slot : Nat) (b : Bookmark) : Prop := c.held slot = some b ∧ b.reader = o.serial

/-- The reader is open, and each of its own bookmarks that is held has a pin of its own. -/
structure Sound (o : Opening) (c : Client) : Prop where
  reader_over : c.reader.Over o c.reader.pinning
  pinned : ∀ {slot b}, c.Owns o slot b → b.pin ∈ c.reader.input.pins
  state_ne : ∀ {slot b}, c.Owns o slot b → b.state ≠ .closed
  apart : ∀ {slot slot' b b'}, c.Owns o slot b → c.Owns o slot' b' → b.pin.serial = b'.pin.serial → slot = slot'

theorem sound_ofSource (source : Source) (limits : Limits) (serial : Nat) {held : Nat → Option Bookmark}
    (hforeign : ∀ slot b, held slot = some b → b.reader ≠ serial) :
    (ofSource source limits serial held).Sound ⟨source.feed, serial, limits⟩ where
  reader_over := ⟨ReplayBuffer.window_of_source source, rfl, rfl, rfl, nofun⟩
  pinned h := absurd h.2 (hforeign _ _ h.1)
  state_ne h := absurd h.2 (hforeign _ _ h.1)
  apart h := absurd h.2 (hforeign _ _ h.1)

/-- What a reader does that leaves the pins alone. -/
theorem Sound.of_over (h : c.Sound o) {r : Reader} (hr : r.Over o c.reader.pinning) :
    Sound o { c with reader := r } where
  reader_over := by
    have hpins := hr.pinning_eq
    rwa [← hpins] at hr
  pinned howns := by
    have hpins : r.input.pins = c.reader.input.pins := congrArg Prod.fst hr.pinning_eq
    exact hpins ▸ h.pinned howns
  state_ne howns := h.state_ne howns
  apart howns howns' := h.apart howns howns'

theorem drop_face (c : Client) (slot : Nat) : (c.drop slot).reader.face = c.reader.face := by
  rw [drop]
  split
  · rfl
  · rw [Reader.dropBookmark]
    split <;> rfl

theorem drop_held (c : Client) (slot : Nat) : (c.drop slot).held = Function.update c.held slot none := by
  rw [drop]
  split
  · next hnone => rw [← hnone, Function.update_eq_self]
  · rfl

theorem owns_drop {slot' : Nat} {b' : Bookmark} (h : (c.drop slot).Owns o slot' b') :
    slot' ≠ slot ∧ c.Owns o slot' b' := by
  obtain ⟨hheld, hreader⟩ := h
  rw [drop_held, Function.update_apply] at hheld
  split at hheld
  · cases hheld
  · next hne => exact ⟨hne, hheld, hreader⟩

theorem mem_pins_drop (h : c.Sound o) {pin : Pin} (hpin : pin ∈ c.reader.input.pins)
    (hother : ∀ b, c.Owns o slot b → b.pin.serial ≠ pin.serial) : pin ∈ (c.drop slot).reader.input.pins := by
  rw [drop]
  split
  · exact hpin
  · next b hheld =>
      rw [Reader.dropBookmark, h.reader_over.serial_eq]
      split
      · next hreader =>
          refine List.mem_filter.2 ⟨hpin, ?_⟩
          simpa using (hother b ⟨hheld, hreader⟩).symm
      · exact hpin

theorem Sound.drop (h : c.Sound o) (slot : Nat) : (c.drop slot).Sound o where
  reader_over := by
    rw [Client.drop]
    split
    · exact h.reader_over
    · exact h.reader_over.dropBookmark _
  pinned howns := by
    obtain ⟨hne, howns⟩ := owns_drop howns
    exact mem_pins_drop h (h.pinned howns) fun b hb heq => hne (h.apart howns hb heq.symm)
  state_ne howns := h.state_ne (owns_drop howns).2
  apart howns howns' := h.apart (owns_drop howns).2 (owns_drop howns').2

theorem Sound.mark (h : c.Sound o) : Sound o { c with reader := c.reader.marked } where
  reader_over := h.reader_over.marked
  pinned howns := ReplayBuffer.mem_pin_pins.2 (.inl (h.pinned howns))
  state_ne howns := h.state_ne howns
  apart howns howns' := h.apart howns howns'

/-- A pinned place may be put into a slot if no other slot needs its pin. -/
theorem Sound.put (h : c.Sound o) (hpin : b.pin ∈ c.reader.input.pins) (hstate : b.state ≠ .closed)
    (hother : ∀ {slot' b'}, c.Owns o slot' b' → b'.pin.serial ≠ b.pin.serial) (slot : Nat) :
    Sound o { c with held := Function.update c.held slot (some b) } := by
  have howned {slot' : Nat} {b' : Bookmark}
      (howns : Owns o { c with held := Function.update c.held slot (some b) } slot' b') :
      slot' = slot ∧ b' = b ∨ c.Owns o slot' b' := by
    obtain ⟨hheld, hreader⟩ := howns
    dsimp only at hheld
    rw [Function.update_apply] at hheld
    split at hheld
    · next heq =>
        cases hheld
        exact .inl ⟨heq, rfl⟩
    · exact .inr ⟨hheld, hreader⟩
  refine ⟨h.reader_over, fun howns => ?_, fun howns => ?_, fun howns howns' hserial => ?_⟩
  · rcases howned howns with ⟨-, rfl⟩ | howns
    · exact hpin
    · exact h.pinned howns
  · rcases howned howns with ⟨-, rfl⟩ | howns
    · exact hstate
    · exact h.state_ne howns
  · rcases howned howns with ⟨rfl, rfl⟩ | hold
    · rcases howned howns' with ⟨rfl, -⟩ | hold'
      · rfl
      · exact absurd hserial.symm (hother hold')
    · rcases howned howns' with ⟨rfl, rfl⟩ | hold'
      · exact absurd hserial (hother hold)
      · exact h.apart hold hold' hserial

theorem step_call (c : Client) (call : Call) :
    c.step (.call call) =
      (⟨.called call (call.read.run.run c.reader).1, (call.read.run.run c.reader).2.face⟩,
        { c with reader := (call.read.run.run c.reader).2 }) := rfl

/-- Taking a bookmark never fails, and tells where the reader is. -/
theorem step_take (h : c.Sound o) (slot : Nat) :
    ∃ c', c.step (.take slot) = (⟨.taken (.ok (c.reader.position, c.reader.state)), c.reader.face⟩, c') ∧ c'.Sound o ∧
      c'.held = Function.update c.held slot (some c.reader.mark) ∧ c'.reader.face = c.reader.face := by
  have hmarked := h.mark
  -- the new pin has a serial of its own, so it outlives a bookmark that lay in the slot
  have hserial {slot' b'} (howns : c.Owns o slot' b') : b'.pin.serial ≠ c.reader.mark.pin.serial :=
    Nat.ne_of_lt (h.reader_over.window.fresh _ (h.pinned howns))
  have hpin : c.reader.mark.pin ∈ (drop { c with reader := c.reader.marked } slot).reader.input.pins :=
    mem_pins_drop hmarked (ReplayBuffer.mem_pin_pins.2 (.inr rfl)) fun _ howns => hserial howns
  have hface := drop_face { c with reader := c.reader.marked } slot
  have hput := (hmarked.drop slot).put hpin h.reader_over.state_ne (fun howns => hserial (owns_drop howns).2) slot
  refine ⟨_, ?_, hput, ?_, hface⟩
  · simp only [step, Reader.bookmark_run h.reader_over, hface]
    rfl
  · dsimp only
    rw [drop_held, Function.update_idem]

theorem step_returnTo (h : c.Sound o) (howns : c.Owns o slot b) :
    ∃ c', c.step (.returnTo slot) = (⟨.returned (some (.ok ())), b.face⟩, c') ∧ c'.Sound o ∧ c'.held = c.held ∧
      c'.reader.face = b.face := by
  obtain ⟨r', hrun, hover, hface⟩ := Reader.returnTo_run h.reader_over howns.2 (h.pinned howns) (h.state_ne howns)
  refine ⟨_, ?_, h.of_over hover, rfl, hface⟩
  simp only [step, howns.1, hrun, hface]

theorem step_returnTo_none (hnone : c.held slot = none) :
    c.step (.returnTo slot) = (⟨.returned none, c.reader.face⟩, c) := by
  rw [step, hnone]

theorem step_returnTo_other (h : c.Sound o) (hheld : c.held slot = some b) (hb : b.reader ≠ o.serial) :
    ∃ c', c.step (.returnTo slot) =
        (⟨.returned (some (.error (.staleBookmark b.pin.position .otherReader))), c.reader.face⟩, c') ∧ c'.Sound o ∧
      c'.held = c.held ∧ c'.reader.face = c.reader.face := by
  have hover : (c.reader.refusing b).Over o c.reader.pinning := h.reader_over.recorded _
  refine ⟨_, ?_, h.of_over hover, rfl, rfl⟩
  simp only [step, hheld, Reader.returnTo_run_other h.reader_over hb]
  rfl

/-- Two clients whose readers show the same, and that hold the same bookmarks in certain slots but for the pins. -/
structure Agree (o : Opening) (kept : Set Nat) (c d : Client) : Prop where
  left : c.Sound o
  right : d.Sound o
  face_eq : c.reader.face = d.reader.face
  held_eq : ∀ slot ∈ kept, (c.held slot).map Bookmark.view = (d.held slot).map Bookmark.view

/-- An operation returns to no bookmark outside certain slots. -/
def Uses (kept : Set Nat) : Operation → Prop
  | .returnTo slot => slot ∈ kept
  | _ => True

/-- The slots after an operation: a bookmark that has been taken may be returned to. -/
def after (kept : Set Nat) : Operation → Set Nat
  | .take slot => insert slot kept
  | _ => kept

/-- Operations return to no bookmark but those in certain slots and those that they have taken themselves. -/
def UsesOnly (kept : Set Nat) : List Operation → Prop
  | [] => True
  | operation :: later => Uses kept operation ∧ UsesOnly (after kept operation) later

variable {kept : Set Nat}

theorem Agree.readers (h : Agree o kept c d) :
    Reader.Agree o c.reader.pinning d.reader.pinning c.reader d.reader :=
  ⟨h.left.reader_over, h.right.reader_over, h.face_eq⟩

theorem Agree.call (h : Agree o kept c d) (call : Call) :
    (c.step (.call call)).1 = (d.step (.call call)).1 ∧
      Agree o kept (c.step (.call call)).2 (d.step (.call call)).2 := by
  obtain ⟨hresult, hagree⟩ := call.steady_read.matches (Reader.blind_agree o _ _) h.readers
  refine ⟨?_, h.left.of_over hagree.left, h.right.of_over hagree.right, hagree.face_eq, h.held_eq⟩
  rw [step_call, step_call, hresult, hagree.face_eq]

theorem Agree.take (h : Agree o kept c d) (slot : Nat) :
    (c.step (.take slot)).1 = (d.step (.take slot)).1 ∧
      Agree o (insert slot kept) (c.step (.take slot)).2 (d.step (.take slot)).2 := by
  obtain ⟨c', hc, hcsound, hcheld, hcface⟩ := step_take h.left slot
  obtain ⟨d', hd, hdsound, hdheld, hdface⟩ := step_take h.right slot
  rw [hc, hd]
  refine ⟨?_, hcsound, hdsound, ?_, fun slot' hslot' => ?_⟩
  · rw [h.face_eq, h.readers.position_eq, h.readers.alike.state_eq]
  · rw [hcface, hdface, h.face_eq]
  · rw [hcheld, hdheld, Function.update_apply, Function.update_apply]
    split
    · rw [Option.map_some, Option.map_some, Reader.view_mark, Reader.view_mark, h.face_eq,
        h.left.reader_over.serial_eq, h.right.reader_over.serial_eq]
    · next hne => exact h.held_eq slot' (hslot'.resolve_left hne)

theorem Agree.returnTo (h : Agree o kept c d) (hslot : slot ∈ kept) :
    (c.step (.returnTo slot)).1 = (d.step (.returnTo slot)).1 ∧
      Agree o kept (c.step (.returnTo slot)).2 (d.step (.returnTo slot)).2 := by
  have hview := h.held_eq slot hslot
  rcases hc : c.held slot with _ | b
  · have hd : d.held slot = none := by simpa [hc, eq_comm] using hview
    rw [step_returnTo_none hc, step_returnTo_none hd, h.face_eq]
    exact ⟨rfl, h⟩
  · obtain ⟨b', hd, hview⟩ : ∃ b', d.held slot = some b' ∧ b'.view = b.view := by simpa [hc, eq_comm] using hview
    obtain ⟨hreader, hface⟩ := Prod.mk.inj hview
    -- both bookmarks are the readers' own, or both are refused
    by_cases hown : b.reader = o.serial
    · obtain ⟨c', hc', hcsound, hcheld, hcface⟩ := step_returnTo h.left ⟨hc, hown⟩
      obtain ⟨d', hd', hdsound, hdheld, hdface⟩ := step_returnTo h.right ⟨hd, hreader.trans hown⟩
      rw [hc', hd', hface]
      refine ⟨rfl, hcsound, hdsound, ?_, ?_⟩
      · rw [hcface, hdface, hface]
      · rw [hcheld, hdheld]
        exact h.held_eq
    · obtain ⟨c', hc', hcsound, hcheld, hcface⟩ := step_returnTo_other h.left hc hown
      obtain ⟨d', hd', hdsound, hdheld, hdface⟩ := step_returnTo_other h.right hd (hreader ▸ hown)
      have hposition : b'.pin.position = b.pin.position := congrArg Reader.Face.position hface
      rw [hc', hd', hposition, h.face_eq]
      refine ⟨rfl, hcsound, hdsound, ?_, ?_⟩
      · rw [hcface, hdface, h.face_eq]
      · rw [hcheld, hdheld]
        exact h.held_eq

theorem Agree.drop (h : Agree o kept c d) (slot : Nat) :
    (c.step (.drop slot)).1 = (d.step (.drop slot)).1 ∧
      Agree o kept (c.step (.drop slot)).2 (d.step (.drop slot)).2 := by
  have hface : (c.drop slot).reader.face = (d.drop slot).reader.face := by
    rw [drop_face, drop_face, h.face_eq]
  refine ⟨by simp only [step, hface], h.left.drop slot, h.right.drop slot, hface, fun slot' hslot' => ?_⟩
  simp only [step, drop_held, Function.update_apply]
  split
  · rfl
  · exact h.held_eq slot' hslot'

/-- An operation tells two clients the same. -/
theorem Agree.step (h : Agree o kept c d) {operation : Operation} (huses : Uses kept operation) :
    (c.step operation).1 = (d.step operation).1 ∧
      Agree o (after kept operation) (c.step operation).2 (d.step operation).2 := by
  cases operation with
  | call call => exact h.call call
  | take slot => exact h.take slot
  | returnTo slot => exact h.returnTo huses
  | drop slot => exact h.drop slot

/-- Operations in turn tell two clients the same. -/
theorem Agree.run (h : Agree o kept c d) {operations : List Operation} (huses : UsesOnly kept operations) :
    (c.run operations).1 = (d.run operations).1 := by
  induction operations generalizing c d kept with
  | nil => rfl
  | cons operation later ih =>
      obtain ⟨hanswer, hagree⟩ := h.step huses.1
      simp only [Client.run, hanswer, ih hagree huses.2]

theorem Sound.agree (h : c.Sound o) : Agree o Set.univ c c := ⟨h, h, rfl, fun _ _ => rfl⟩

theorem uses_univ (operation : Operation) : Uses Set.univ operation := by
  cases operation <;> trivial

theorem Sound.step (h : c.Sound o) (operation : Operation) : (c.step operation).2.Sound o :=
  (h.agree.step (uses_univ operation)).2.left

theorem Sound.run (h : c.Sound o) (operations : List Operation) : (c.run operations).2.Sound o := by
  induction operations generalizing c with
  | nil => exact h
  | cons operation later ih => exact ih (h.step operation)

/-- An operation fills and empties other slots alone. -/
def Spares (slot : Nat) : Operation → Prop
  | .take other | .drop other => slot ≠ other
  | _ => True

theorem held_step (c : Client) {operation : Operation} (hspares : Spares slot operation) :
    (c.step operation).2.held slot = c.held slot := by
  cases operation with
  | call call => rfl
  | take other =>
      rw [step]
      split
      · simp only [drop_held, Function.update_of_ne hspares]
      · rfl
  | returnTo other =>
      rw [step]
      split <;> rfl
  | drop other => rw [step, drop_held, Function.update_of_ne hspares]

end Client

end Aggregation.Wire
