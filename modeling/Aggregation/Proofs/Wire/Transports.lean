import Aggregation.Proofs.Wire.Bookmarks
import Aggregation.Proofs.Wire.Values
import Aggregation.Wire.DocumentStream

/-! Two readers over different sources. If the sources hand out the same bytes and end in the same way, it does not
matter in which pieces the bytes arrive and how often a read is interrupted: whatever is done with the readers, both
tell the same. The readers keep different bytes, and pin and forget the same ones. -/

namespace Aggregation.Wire

open Stepping

theorem ReplayBuffer.base_of_rewind? {b b' : ReplayBuffer} {p : Nat} (h : b.rewind? p = some b') : b'.base = b.base := by
  rw [ReplayBuffer.rewind?] at h
  split at h
  · cases h
  · cases h
    rfl

namespace Reader

/-- Two readers that show the same, now and after they have been closed. -/
structure Peers (r q : Reader) : Prop where
  face_eq : r.face = q.face
  isReleased_eq : r.input.isReleased = q.input.isReleased
  base_eq : r.input.base = q.input.base
  log_eq : r.log = q.log

/-- Two open readers over the same that show the same, with the same pins. -/
structure Twin (o : Opening) (pins : List Pin × Nat) (r q : Reader) : Prop where
  agree : Agree o pins pins r q
  base_eq : r.input.base = q.input.base
  log_eq : r.log = q.log

/-- Two readers that have given up their sources and show the same. -/
structure Shut (r q : Reader) : Prop where
  peers : Peers r q
  isReleased_eq : r.input.isReleased = true

section

variable {o : Opening} {pins : List Pin × Nat} {r q : Reader} {b : Bookmark}

theorem Twin.peers (h : Twin o pins r q) : Peers r q where
  face_eq := h.agree.face_eq
  isReleased_eq := h.agree.left.window.isReleased_eq.trans h.agree.right.window.isReleased_eq.symm
  base_eq := h.base_eq
  log_eq := h.log_eq

theorem Twin.input_pins_eq (h : Twin o pins r q) : r.input.pins = q.input.pins :=
  congrArg Prod.fst (h.agree.left.pinning_eq.trans h.agree.right.pinning_eq.symm)

theorem Twin.nextPin_eq (h : Twin o pins r q) : r.input.nextPin = q.input.nextPin :=
  congrArg Prod.snd (h.agree.left.pinning_eq.trans h.agree.right.pinning_eq.symm)

theorem twin_ofSource {source source' : Source} (hfeed : source.feed = source'.feed) (limits : Limits) (serial : Nat) :
    Twin ⟨source.feed, serial, limits⟩ ([], 0) (ofSource source limits serial) (ofSource source' limits serial) where
  agree :=
    ⟨⟨ReplayBuffer.window_of_source source, rfl, rfl, rfl, nofun⟩,
      ⟨hfeed ▸ ReplayBuffer.window_of_source source', rfl, rfl, rfl, nofun⟩, rfl⟩
  base_eq := rfl
  log_eq := rfl

/-- What is forgotten depends on the pins and on the position, not on what is kept. -/
theorem Twin.base_compact_eq (h : Twin o pins r q) : r.input.compact.base = q.input.compact.base := by
  have holdest : r.input.oldest = q.input.oldest := by
    have hposition := h.agree.position_eq
    rw [position, position] at hposition
    rw [ReplayBuffer.oldest, ReplayBuffer.oldest, h.input_pins_eq, hposition]
  rw [ReplayBuffer.compact, ReplayBuffer.compact]
  dsimp only
  rw [holdest, h.base_eq]

theorem blind_twin (o : Opening) (pins : List Pin × Nat) : Blind (Twin o pins) where
  alike h := h.agree.alike
  state_ne h := h.agree.left.state_ne
  left h := ⟨o.feed, h.agree.left.window⟩
  right h := ⟨o.feed, h.agree.right.window⟩
  onInput := by
    intro α step hstep r q h
    obtain ⟨hresult, hagree⟩ := h.agree.onInput hstep
    exact ⟨hresult, hagree, (hstep.keeps r.input).trans (h.base_eq.trans (hstep.keeps q.input).symm), h.log_eq⟩
  shows h _ hstate _ _ _ := ⟨h.agree.shows hstate _ _ _, h.base_eq, h.log_eq⟩
  record h entry :=
    ⟨⟨h.agree.left.recorded _, h.agree.right.recorded _, h.agree.face_eq⟩, h.base_eq, by rw [h.log_eq]⟩
  compact h := by
    refine ⟨?_, h.base_compact_eq, h.log_eq⟩
    exact h.agree.reaches h.agree.left.window.reaches_compact h.agree.right.window.reaches_compact
      h.agree.position_eq

/-! ## Bookmarks -/

theorem Twin.mark_eq (h : Twin o pins r q) : r.mark = q.mark := by
  have hposition := h.agree.position_eq
  rw [position, position] at hposition
  rw [mark, mark, ReplayBuffer.pin, ReplayBuffer.pin, h.agree.left.serial_eq, h.agree.right.serial_eq, h.nextPin_eq,
    hposition, h.agree.alike.state_eq, h.agree.alike.currentType_eq, h.agree.alike.currentName_eq,
    h.agree.alike.frames_eq]

/-- Changes of the pins alone, by which they stay the same. -/
theorem Twin.repin (h : Twin o pins r q) {b c : ReplayBuffer} {pins' : List Pin × Nat}
    (hr : Over o pins' { r with input := b }) (hq : Over o pins' { q with input := c })
    (hb : b.position = r.input.position) (hc : c.position = q.input.position) (hbase : b.base = c.base) :
    Twin o pins' { r with input := b } { q with input := c } := by
  have hposition := h.agree.position_eq
  rw [position, position] at hposition
  refine ⟨⟨hr, hq, ?_⟩, hbase, h.log_eq⟩
  simp only [face, position, hb, hc, hposition, h.agree.alike.state_eq, h.agree.alike.currentType_eq,
    h.agree.alike.currentName_eq, h.agree.alike.frames_eq]

theorem Twin.marked (h : Twin o pins r q) : Twin o r.marked.pinning r.marked q.marked := by
  have hpinning : q.marked.pinning = r.marked.pinning := by
    have hposition := h.agree.position_eq
    rw [position, position] at hposition
    rw [pinning, pinning, Reader.marked, Reader.marked, ReplayBuffer.pin, ReplayBuffer.pin]
    dsimp only
    rw [h.input_pins_eq, h.nextPin_eq, hposition]
  have hright := h.agree.right.marked
  rw [hpinning] at hright
  exact h.repin h.agree.left.marked hright rfl rfl h.base_eq

theorem Twin.dropBookmark (h : Twin o pins r q) (b : Bookmark) :
    Twin o (r.dropBookmark b).pinning (r.dropBookmark b) (q.dropBookmark b) := by
  have hserial : r.serial = q.serial := h.agree.left.serial_eq.trans h.agree.right.serial_eq.symm
  have hleft := h.agree.left.dropBookmark b
  have hright := h.agree.right.dropBookmark b
  by_cases hown : b.reader = r.serial
  · have hr : r.dropBookmark b = { r with input := r.input.unpin b.pin.serial } := if_pos hown
    have hq : q.dropBookmark b = { q with input := q.input.unpin b.pin.serial } := if_pos (hown.trans hserial)
    have hpinning : (q.dropBookmark b).pinning = (r.dropBookmark b).pinning := by
      rw [hr, hq, pinning, pinning, ReplayBuffer.unpin, ReplayBuffer.unpin]
      dsimp only
      rw [h.input_pins_eq, h.nextPin_eq]
    rw [hpinning] at hright
    rw [hr] at hleft hright ⊢
    rw [hq] at hright ⊢
    exact h.repin hleft hright rfl rfl h.base_eq
  · have hr : r.dropBookmark b = r := if_neg hown
    have hq : q.dropBookmark b = q := if_neg fun heq => hown (heq.trans hserial.symm)
    rw [hr, hq, h.agree.left.pinning_eq]
    exact h

theorem Twin.returnTo (h : Twin o pins r q) (hb : b.reader = o.serial) (hpin : b.pin ∈ r.input.pins)
    (hstate : b.state ≠ .closed) : Matches (Twin o pins) (Reader.returnTo b) (Reader.returnTo b) r q := by
  obtain ⟨input, hrewind, hreaches⟩ := h.agree.left.window.exists_rewind hpin
  obtain ⟨input', hrewind', hreaches'⟩ := h.agree.right.window.exists_rewind (h.input_pins_eq ▸ hpin)
  rw [Matches, returnTo_run_of_rewind h.agree.left hb hrewind, returnTo_run_of_rewind h.agree.right hb hrewind']
  refine ⟨rfl, (h.agree.reaches hreaches hreaches' rfl).shows hstate _ _ _, ?_, h.log_eq⟩
  have hbase := ReplayBuffer.base_of_rewind? hrewind
  have hbase' := ReplayBuffer.base_of_rewind? hrewind'
  exact hbase.trans (h.base_eq.trans hbase'.symm)

theorem Twin.returnTo_other (h : Twin o pins r q) (hb : b.reader ≠ o.serial) :
    Matches (Twin o pins) (Reader.returnTo b) (Reader.returnTo b) r q := by
  rw [Matches, returnTo_run_other h.agree.left hb, returnTo_run_other h.agree.right hb]
  exact ⟨rfl, (blind_twin o pins).record h _⟩

/-! ## Readers without a source -/

theorem Shut.isClosed_eq (h : Shut r q) : r.isClosed = true ∧ q.isClosed = true := by
  have hright := h.peers.isReleased_eq.symm.trans h.isReleased_eq
  constructor
  · rw [isClosed, h.isReleased_eq, Bool.or_true]
  · rw [isClosed, hright, Bool.or_true]

theorem Peers.close (h : Peers r q) : Shut r.close q.close := by
  have hposition : r.position = q.position := congrArg Face.position h.face_eq
  have htype : r.currentType = q.currentType := congrArg Face.currentType h.face_eq
  have hname : r.currentName = q.currentName := congrArg Face.currentName h.face_eq
  refine ⟨⟨?_, rfl, h.base_eq, ?_⟩, rfl⟩
  · simp only [face, Reader.close, position, ReplayBuffer.position, ReplayBuffer.release, h.base_eq, htype, hname]
  · simp only [Reader.close, h.isReleased_eq, hposition, h.log_eq]

theorem Peers.release (h : Peers r q) : Shut r.release.2 q.release.2 := by
  have htype : r.currentType = q.currentType := congrArg Face.currentType h.face_eq
  have hname : r.currentName = q.currentName := congrArg Face.currentName h.face_eq
  have hframes : r.frames = q.frames := congrArg Face.frames h.face_eq
  refine ⟨⟨?_, rfl, h.base_eq, h.log_eq⟩, rfl⟩
  simp only [face, Reader.release, position, ReplayBuffer.position, ReplayBuffer.release, h.base_eq, htype, hname,
    hframes]

theorem peers_dropBookmark (r : Reader) (b : Bookmark) : Peers (r.dropBookmark b) r := by
  rw [Reader.dropBookmark]
  split
  · exact ⟨rfl, rfl, rfl, rfl⟩
  · exact ⟨rfl, rfl, rfl, rfl⟩

theorem Shut.of_peers (h : Shut r q) {r' q' : Reader} (hr : Peers r' r) (hq : Peers q' q) : Shut r' q' := by
  refine ⟨⟨?_, ?_, ?_, ?_⟩, hr.isReleased_eq.trans h.isReleased_eq⟩
  · rw [hr.face_eq, hq.face_eq, h.peers.face_eq]
  · rw [hr.isReleased_eq, hq.isReleased_eq, h.peers.isReleased_eq]
  · rw [hr.base_eq, hq.base_eq, h.peers.base_eq]
  · rw [hr.log_eq, hq.log_eq, h.peers.log_eq]

end

/-- A step that a closed reader refuses. -/
def Barred {α : Type} (e : WireError) (x : Read α) : Prop :=
  ∀ r : Reader, r.isClosed = true → x.run.run r = (.error e, r)

section

variable {α β : Type} {e : WireError} {x : Read α} {r q : Reader}

theorem barred_ensureOpen : Barred .closed Read.ensureOpen := by
  intro r h
  rw [Read.ensureOpen, run_bind_ok (run_get r)]
  simp only [h, reduceIte]
  exact run_throw _ _

theorem Barred.bind (h : Barred e x) (f : α → Read β) : Barred e (x >>= f) :=
  fun r hr => run_bind_error (h r hr)

theorem Shut.matches (h : Shut r q) (hx : Barred e x) : Matches Shut x x r q := by
  rw [Matches, hx r h.isClosed_eq.1, hx q h.isClosed_eq.2]
  exact ⟨rfl, h⟩

theorem barred_read (call : Call) : Barred .closed call.read := by
  cases call with
  | isAtEnd | readType | readName | skipName | startDocument | endDocument | endArray | skipValue =>
      exact barred_ensureOpen.bind _
  | _ => exact (barred_ensureOpen.bind _).bind _

theorem barred_bookmark : Barred .closed bookmark := barred_ensureOpen.bind _

theorem barred_returnTo (b : Bookmark) : Barred .closed (returnTo b) := barred_ensureOpen.bind _

theorem barred_readDocumentWithin (fuel : Nat) : Barred .closed (readDocumentWithin (fuel + 1)) := by
  rw [readDocumentWithin]
  exact (barred_read .startDocument).bind _

theorem barred_readDocument : Barred .closed readDocument := by
  intro r h
  rw [readDocument, run_bind_ok (run_get r), steps]
  exact barred_readDocumentWithin _ r h

/-- What is told of a value of a type by a closed reader: the end of a document is no type of value at all. -/
def valueRefusal (type : ElementType) : WireError :=
  if type = .endOfDocument then .invalidState "read_value" "EndOfDocument" else .closed

theorem barred_readValue (type : ElementType) : Barred (valueRefusal type) (readValue type) := by
  intro r h
  rw [readValue, run_bind_ok (run_get r), steps]
  rcases exists_readsBy_or type with ⟨call, k, hreads⟩ | rfl | rfl | rfl | rfl
  · rw [hreads.read_eq, valueRefusal, if_neg hreads.type_ne]
    exact (barred_read call).bind _ r h
  · exact (barred_readDocumentWithin _).bind _ r h
  · exact ((barred_read .startArray).bind _).bind _ r h
  · exact (barred_read .readScopedCode).bind _ r h
  · exact run_throw _ r

end

/-- Two readers that no step tells apart, open or closed. -/
def Same (r q : Reader) : Prop := (∃ o pins, Twin o pins r q) ∨ Shut r q

section

variable {α : Type} {e : WireError} {x : Read α} {r q : Reader}

theorem Same.peers (h : Same r q) : Peers r q := by
  obtain ⟨o, pins, htwin⟩ | hshut := h
  · exact htwin.peers
  · exact hshut.peers

theorem Same.matches (h : Same r q) (hx : x.Steady) (hbar : Barred e x) : Matches Same x x r q := by
  obtain ⟨o, pins, htwin⟩ | hshut := h
  · obtain ⟨hresult, htwin'⟩ := hx.matches (blind_twin o pins) htwin
    exact ⟨hresult, .inl ⟨o, pins, htwin'⟩⟩
  · obtain ⟨hresult, hshut'⟩ := hshut.matches hbar
    exact ⟨hresult, .inr hshut'⟩

theorem Same.close (h : Same r q) : Same r.close q.close := .inr h.peers.close

end

end Reader

/-! ## Streams -/

namespace DocumentStream

/-- Two streams that tell the same, now and later. -/
structure Same (s t : DocumentStream) : Prop where
  readers : Reader.Same s.reader t.reader
  error_eq : s.error = t.error
  isFinished_eq : s.isFinished = t.isFinished

variable {s t : DocumentStream}

theorem Same.finish (h : Same s t) (error : Option WireError) : Same (s.finish error) (t.finish error) :=
  ⟨h.readers.close, rfl, rfl⟩

theorem Same.next (h : Same s t) : s.next.1 = t.next.1 ∧ Same s.next.2 t.next.2 := by
  obtain ⟨r, error, isFinished⟩ := s
  obtain ⟨q, error', isFinished'⟩ := t
  obtain ⟨hreaders, rfl, rfl⟩ := h
  have hmoved {r q : Reader} (h : Reader.Same r q) :
      Same { reader := r, error, isFinished } { reader := q, error, isFinished } := ⟨h, rfl, rfl⟩
  rw [DocumentStream.next, DocumentStream.next]
  split
  · exact ⟨rfl, hmoved hreaders⟩
  · have hend := hreaders.matches Reader.steady_isAtEnd (Reader.barred_read .isAtEnd)
    rcases hr : Reader.isAtEnd.run.run r with ⟨result, r'⟩
    rcases hq : Reader.isAtEnd.run.run q with ⟨result', q'⟩
    rw [Matches, hr, hq] at hend
    obtain ⟨rfl, hsame⟩ := hend
    rcases result with e | _ | _
    · exact ⟨rfl, (hmoved hsame).finish _⟩
    · have hread := hsame.matches Reader.local_readDocument.steady Reader.barred_readDocument
      dsimp only
      rcases hr' : Reader.readDocument.run.run r' with ⟨result, r''⟩
      rcases hq' : Reader.readDocument.run.run q' with ⟨result', q''⟩
      rw [Matches, hr', hq'] at hread
      obtain ⟨rfl, hsame'⟩ := hread
      rcases result with e | d
      · exact ⟨rfl, (hmoved hsame').finish _⟩
      · exact ⟨rfl, hmoved hsame'⟩
    · exact ⟨rfl, (hmoved hsame).finish _⟩

theorem Same.take (h : Same s t) (count : Nat) :
    (s.take count).1 = (t.take count).1 ∧ Same (s.take count).2 (t.take count).2 := by
  induction count generalizing s t with
  | zero => exact ⟨rfl, h⟩
  | succ count ih =>
      obtain ⟨hgiven, hnext⟩ := h.next
      rw [DocumentStream.take, DocumentStream.take]
      rcases hs : s.next with ⟨given, s'⟩
      rcases ht : t.next with ⟨given', t'⟩
      rw [hs, ht] at hgiven hnext
      obtain rfl : given = given' := hgiven
      cases given with
      | none => exact ⟨rfl, hnext⟩
      | some d =>
          obtain ⟨hlater, hend⟩ := ih hnext
          exact ⟨congrArg (d :: ·) hlater, hend⟩

end DocumentStream

/-! ## Clients -/

/-- What can be done with a reader and its bookmarks. -/
inductive Action where
  | operate (operation : Operation)
  | readDocument
  | readValue (type : ElementType)
  | close
  /-- Takes the source back. -/
  | release

/-- What is seen of an action. -/
inductive Sight where
  | operated (answer : Answer)
  | document (result : Except WireError Document) (face : Reader.Face)
  | value (result : Except WireError Value) (face : Reader.Face)
  | closed (face : Reader.Face)
  /-- Whether there still was a source to give back. -/
  | released (held : Bool) (face : Reader.Face)

namespace Client

def act (c : Client) : Action → Sight × Client
  | .operate operation =>
    let (answer, c) := c.step operation
    (.operated answer, c)
  | .readDocument =>
    let (result, reader) := Reader.readDocument.run.run c.reader
    (.document result reader.face, { c with reader })
  | .readValue type =>
    let (result, reader) := (Reader.readValue type).run.run c.reader
    (.value result reader.face, { c with reader })
  | .close => (.closed c.reader.close.face, { c with reader := c.reader.close })
  | .release =>
    let (source, reader) := c.reader.release
    (.released source.isSome reader.face, { c with reader })

def perform (c : Client) : List Action → List Sight × Client
  | [] => ([], c)
  | action :: later =>
    let (sight, c) := c.act action
    let (sights, c) := c.perform later
    (sight :: sights, c)

/-- Two clients whose readers are open over the same and show the same, and that hold the same bookmarks. -/
structure Twin (o : Opening) (c d : Client) : Prop where
  left : c.Sound o
  right : d.Sound o
  readers : Reader.Twin o c.reader.pinning c.reader d.reader
  held_eq : c.held = d.held

/-- Two clients whose readers have given up their sources. -/
structure Shut (c d : Client) : Prop where
  readers : Reader.Shut c.reader d.reader
  held_eq : c.held = d.held

/-- Two clients that no action tells apart. -/
def Same (o : Opening) (c d : Client) : Prop := Twin o c d ∨ Shut c d

variable {o : Opening} {c d : Client} {slot : Nat}

theorem twin_ofSource {source source' : Source} (hfeed : source.feed = source'.feed) (limits : Limits) (serial : Nat)
    {held : Nat → Option Bookmark} (hforeign : ∀ slot b, held slot = some b → b.reader ≠ serial) :
    Twin ⟨source.feed, serial, limits⟩ (ofSource source limits serial held) (ofSource source' limits serial held) where
  left := sound_ofSource source limits serial hforeign
  right := hfeed ▸ sound_ofSource source' limits serial hforeign
  readers := Reader.twin_ofSource hfeed limits serial
  held_eq := rfl

theorem Twin.pinning_eq (h : Twin o c d) : d.reader.pinning = c.reader.pinning := h.readers.agree.right.pinning_eq

/-- What both readers do alike and what leaves the pins alone. -/
theorem Twin.of_readers (h : Twin o c d) {r q : Reader} (hrq : Reader.Twin o c.reader.pinning r q) :
    Twin o { c with reader := r } { d with reader := q } where
  left := h.left.of_over hrq.agree.left
  right := h.right.of_over (h.pinning_eq ▸ hrq.agree.right)
  readers := by
    have hpinning : r.pinning = c.reader.pinning := hrq.agree.left.pinning_eq
    rwa [← hpinning] at hrq
  held_eq := h.held_eq

theorem Twin.of_steady (h : Twin o c d) {α : Type} {x : Read α} (hx : x.Steady) :
    (x.run.run c.reader).1 = (x.run.run d.reader).1 ∧ (x.run.run c.reader).2.face = (x.run.run d.reader).2.face ∧
      Twin o { c with reader := (x.run.run c.reader).2 } { d with reader := (x.run.run d.reader).2 } := by
  obtain ⟨hresult, htwin⟩ := hx.matches (Reader.blind_twin o c.reader.pinning) h.readers
  exact ⟨hresult, htwin.agree.face_eq, h.of_readers htwin⟩

theorem Twin.drop (h : Twin o c d) (slot : Nat) : Twin o (c.drop slot) (d.drop slot) := by
  refine ⟨h.left.drop slot, h.right.drop slot, ?_, ?_⟩
  · rw [Client.drop, Client.drop, ← h.held_eq]
    split
    · exact h.readers
    · exact h.readers.dropBookmark _
  · rw [drop_held, drop_held, h.held_eq]

/-- A client that has taken a bookmark and put it into a slot. -/
def took (c : Client) (slot : Nat) : Client :=
  { drop { c with reader := c.reader.marked } slot with held := Function.update c.held slot (some c.reader.mark) }

theorem step_take_eq (h : c.Sound o) (slot : Nat) :
    c.step (.take slot) = (⟨.taken (.ok (c.reader.position, c.reader.state)), c.reader.face⟩, c.took slot) := by
  have hface := drop_face { c with reader := c.reader.marked } slot
  have hheld : Function.update (drop { c with reader := c.reader.marked } slot).held slot (some c.reader.mark) =
      Function.update c.held slot (some c.reader.mark) := by
    rw [drop_held, Function.update_idem]
  simp only [step, Reader.bookmark_run h.reader_over, hface, took, hheld]
  rfl

theorem Twin.take (h : Twin o c d) (slot : Nat) :
    (c.step (.take slot)).1 = (d.step (.take slot)).1 ∧ Twin o (c.step (.take slot)).2 (d.step (.take slot)).2 := by
  have hmarked : Twin o { c with reader := c.reader.marked } { d with reader := d.reader.marked } :=
    ⟨h.left.mark, h.right.mark, h.readers.marked, h.held_eq⟩
  have hdropped := hmarked.drop slot
  obtain ⟨c', hc, hcsound, -⟩ := step_take h.left slot
  obtain ⟨d', hd, hdsound, -⟩ := step_take h.right slot
  rw [step_take_eq h.left] at hc ⊢
  rw [step_take_eq h.right] at hd ⊢
  obtain ⟨-, rfl⟩ := Prod.mk.inj hc
  obtain ⟨-, rfl⟩ := Prod.mk.inj hd
  refine ⟨?_, hcsound, hdsound, hdropped.readers, ?_⟩
  · rw [h.readers.agree.position_eq, h.readers.agree.alike.state_eq, h.readers.agree.face_eq]
  · rw [took, took, h.held_eq, h.readers.mark_eq]

theorem step_returnTo_some {b : Bookmark} (hheld : c.held slot = some b) :
    c.step (.returnTo slot) =
      (⟨.returned (some ((Reader.returnTo b).run.run c.reader).1), ((Reader.returnTo b).run.run c.reader).2.face⟩,
        { c with reader := ((Reader.returnTo b).run.run c.reader).2 }) := by
  rw [step, hheld]
  rfl

theorem Twin.returnTo (h : Twin o c d) (slot : Nat) :
    (c.step (.returnTo slot)).1 = (d.step (.returnTo slot)).1 ∧
      Twin o (c.step (.returnTo slot)).2 (d.step (.returnTo slot)).2 := by
  rcases hc : c.held slot with _ | b
  · have hd : d.held slot = none := h.held_eq ▸ hc
    rw [step_returnTo_none hc, step_returnTo_none hd, h.readers.agree.face_eq]
    exact ⟨rfl, h⟩
  · have hd : d.held slot = some b := h.held_eq ▸ hc
    have hmatches : Matches (Reader.Twin o c.reader.pinning) (Reader.returnTo b) (Reader.returnTo b)
        c.reader d.reader := by
      by_cases hown : b.reader = o.serial
      · exact h.readers.returnTo hown (h.left.pinned ⟨hc, hown⟩) (h.left.state_ne ⟨hc, hown⟩)
      · exact h.readers.returnTo_other hown
    obtain ⟨hresult, htwin⟩ := hmatches
    rw [step_returnTo_some hc, step_returnTo_some hd, hresult, htwin.agree.face_eq]
    exact ⟨rfl, h.of_readers htwin⟩

theorem Twin.step (h : Twin o c d) (operation : Operation) :
    (c.step operation).1 = (d.step operation).1 ∧ Twin o (c.step operation).2 (d.step operation).2 := by
  cases operation with
  | call call =>
      obtain ⟨hresult, hface, htwin⟩ := h.of_steady call.steady_read
      rw [step_call, step_call]
      rw [hresult, hface]
      exact ⟨rfl, htwin⟩
  | take slot => exact h.take slot
  | returnTo slot => exact h.returnTo slot
  | drop slot =>
      have hdropped := h.drop slot
      rw [Client.step, Client.step, hdropped.readers.agree.face_eq]
      exact ⟨rfl, hdropped⟩

theorem Shut.of_barred (h : Shut c d) {α : Type} {e : WireError} {x : Read α} (hx : Reader.Barred e x) :
    (x.run.run c.reader).1 = (x.run.run d.reader).1 ∧ (x.run.run c.reader).2.face = (x.run.run d.reader).2.face ∧
      Shut { c with reader := (x.run.run c.reader).2 } { d with reader := (x.run.run d.reader).2 } := by
  obtain ⟨hresult, hshut⟩ := h.readers.matches hx
  exact ⟨hresult, hshut.peers.face_eq, hshut, h.held_eq⟩

theorem peers_drop (c : Client) (slot : Nat) : Reader.Peers (c.drop slot).reader c.reader := by
  rw [drop]
  split
  · exact ⟨rfl, rfl, rfl, rfl⟩
  · exact Reader.peers_dropBookmark _ _

theorem Shut.drop (h : Shut c d) (slot : Nat) : Shut (c.drop slot) (d.drop slot) where
  readers := h.readers.of_peers (peers_drop c slot) (peers_drop d slot)
  held_eq := by rw [drop_held, drop_held, h.held_eq]

theorem Shut.step (h : Shut c d) (operation : Operation) :
    (c.step operation).1 = (d.step operation).1 ∧ Shut (c.step operation).2 (d.step operation).2 := by
  cases operation with
  | call call =>
      obtain ⟨hresult, hface, hshut⟩ := h.of_barred (Reader.barred_read call)
      rw [step_call, step_call, hresult, hface]
      exact ⟨rfl, hshut⟩
  | take slot =>
      have hc := Reader.barred_bookmark c.reader h.readers.isClosed_eq.1
      have hd := Reader.barred_bookmark d.reader h.readers.isClosed_eq.2
      rw [Client.step, Client.step, hc, hd]
      exact ⟨congrArg (Answer.mk (.taken (.error .closed))) h.readers.peers.face_eq, h⟩
  | returnTo slot =>
      rcases hc : c.held slot with _ | b
      · have hd : d.held slot = none := h.held_eq ▸ hc
        rw [step_returnTo_none hc, step_returnTo_none hd, h.readers.peers.face_eq]
        exact ⟨rfl, h⟩
      · have hd : d.held slot = some b := h.held_eq ▸ hc
        obtain ⟨hresult, hface, hshut⟩ := h.of_barred (Reader.barred_returnTo b)
        rw [step_returnTo_some hc, step_returnTo_some hd, hresult, hface]
        exact ⟨rfl, hshut⟩
  | drop slot =>
      have hdropped := h.drop slot
      rw [Client.step, Client.step, hdropped.readers.peers.face_eq]
      exact ⟨rfl, hdropped⟩

theorem Same.peers (h : Same o c d) : Reader.Peers c.reader d.reader := by
  obtain htwin | hshut := h
  · exact htwin.readers.peers
  · exact hshut.readers.peers

theorem Same.held_eq (h : Same o c d) : c.held = d.held := by
  obtain htwin | hshut := h
  · exact htwin.held_eq
  · exact hshut.held_eq

theorem Same.of_steady (h : Same o c d) {α : Type} {e : WireError} {x : Read α} (hx : x.Steady)
    (hbar : Reader.Barred e x) :
    (x.run.run c.reader).1 = (x.run.run d.reader).1 ∧ (x.run.run c.reader).2.face = (x.run.run d.reader).2.face ∧
      Same o { c with reader := (x.run.run c.reader).2 } { d with reader := (x.run.run d.reader).2 } := by
  obtain htwin | hshut := h
  · obtain ⟨hresult, hface, htwin⟩ := htwin.of_steady hx
    exact ⟨hresult, hface, .inl htwin⟩
  · obtain ⟨hresult, hface, hshut⟩ := hshut.of_barred hbar
    exact ⟨hresult, hface, .inr hshut⟩

/-- An action tells two clients the same. -/
theorem Same.act (h : Same o c d) (action : Action) :
    (c.act action).1 = (d.act action).1 ∧ Same o (c.act action).2 (d.act action).2 := by
  cases action with
  | operate operation =>
      obtain htwin | hshut := h
      · obtain ⟨hanswer, htwin⟩ := htwin.step operation
        exact ⟨congrArg Sight.operated hanswer, .inl htwin⟩
      · obtain ⟨hanswer, hshut⟩ := hshut.step operation
        exact ⟨congrArg Sight.operated hanswer, .inr hshut⟩
  | readDocument =>
      obtain ⟨hresult, hface, hsame⟩ := h.of_steady Reader.local_readDocument.steady Reader.barred_readDocument
      exact ⟨congrArg₂ Sight.document hresult hface, hsame⟩
  | readValue type =>
      obtain ⟨hresult, hface, hsame⟩ := h.of_steady (Reader.local_readValue type).steady (Reader.barred_readValue type)
      exact ⟨congrArg₂ Sight.value hresult hface, hsame⟩
  | close =>
      have hclosed := h.peers.close
      exact ⟨congrArg Sight.closed hclosed.peers.face_eq, .inr ⟨hclosed, h.held_eq⟩⟩
  | release =>
      have hreleased := h.peers.release
      have hheld : c.reader.input.source.isSome = d.reader.input.source.isSome := by
        have hnone := h.peers.isReleased_eq
        rw [ReplayBuffer.isReleased, ReplayBuffer.isReleased] at hnone
        rw [← Option.not_isNone, ← Option.not_isNone, hnone]
      exact ⟨congrArg₂ Sight.released hheld hreleased.peers.face_eq, .inr ⟨hreleased, h.held_eq⟩⟩

/-- Actions in turn tell two clients the same. -/
theorem Same.perform (h : Same o c d) (actions : List Action) :
    (c.perform actions).1 = (d.perform actions).1 ∧ Same o (c.perform actions).2 (d.perform actions).2 := by
  induction actions generalizing c d with
  | nil => exact ⟨rfl, h⟩
  | cons action later ih =>
      obtain ⟨hsight, hsame⟩ := h.act action
      obtain ⟨hsights, hend⟩ := ih hsame
      refine ⟨?_, hend⟩
      rw [Client.perform, Client.perform]
      exact congrArg₂ List.cons hsight hsights

theorem Same.readers (h : Same o c d) : Reader.Same c.reader d.reader :=
  h.imp (fun htwin => ⟨o, _, htwin.readers⟩) Shut.readers

end Client

theorem decodeStream_eq_of_feed {source source' : Source} (hfeed : source.feed = source'.feed) (limits : Limits) :
    decodeStream source limits = decodeStream source' limits := by
  have hreaders := Reader.twin_ofSource hfeed limits 0
  have hsame : DocumentStream.Same (.ofSource source limits) (.ofSource source' limits) :=
    ⟨.inl ⟨_, _, hreaders⟩, rfl, rfl⟩
  have hsupply : (DocumentStream.ofSource source limits).reader.supply =
      (DocumentStream.ofSource source' limits).reader.supply := hreaders.agree.alike.supply_eq
  obtain ⟨hdocuments, hend⟩ := hsame.take ((DocumentStream.ofSource source' limits).reader.supply + 1)
  rw [decodeStream, decodeStream, DocumentStream.collect, DocumentStream.collect, hsupply]
  dsimp only
  rw [hdocuments, hend.error_eq, hend.readers.peers.log_eq]

/-- What a stream tells beside its documents. -/
def DocumentStream.view (s : DocumentStream) : Option WireError × Bool × Reader.Face :=
  (s.error, s.isFinished, s.reader.face)

/-- Sources that hand out the same bytes and end in the same way cannot be told apart: not by what is done with a
reader and its bookmarks, not by a stream that goes on from where the reader is then, and not by a whole stream. -/
theorem perform_eq_of_content {source source' : Source} (hcontent : source.content = source'.content)
    (hending : source.ending = source'.ending) (limits : Limits) (serial : Nat) {foreign : Nat → Option Bookmark}
    (hforeign : ∀ slot b, foreign slot = some b → b.reader ≠ serial) (actions : List Action) {c c' : Client}
    (hc : c = .ofSource source limits serial foreign) (hc' : c' = .ofSource source' limits serial foreign) :
    (c.perform actions).1 = (c'.perform actions).1 ∧
      (∀ count, ∃ documents s s',
        DocumentStream.take count { reader := (c.perform actions).2.reader } = (documents, s) ∧
        DocumentStream.take count { reader := (c'.perform actions).2.reader } = (documents, s') ∧
        s.view = s'.view) ∧
      decodeStream source limits = decodeStream source' limits := by
  have hfeed : source.feed = source'.feed := by
    rw [Source.feed, Source.feed, hcontent, hending]
  have hsame : Client.Same ⟨source.feed, serial, limits⟩ c c' := by
    rw [hc, hc']
    exact .inl (Client.twin_ofSource hfeed limits serial hforeign)
  obtain ⟨hsights, hend⟩ := hsame.perform actions
  refine ⟨hsights, fun count => ?_, decodeStream_eq_of_feed hfeed limits⟩
  have hstreams : DocumentStream.Same { reader := (c.perform actions).2.reader }
      { reader := (c'.perform actions).2.reader } := ⟨hend.readers, rfl, rfl⟩
  have htake := hstreams.take count
  rcases hs : DocumentStream.take count { reader := (c.perform actions).2.reader } with ⟨documents, s⟩
  rcases hs' : DocumentStream.take count { reader := (c'.perform actions).2.reader } with ⟨documents', s'⟩
  rw [hs, hs'] at htake
  obtain ⟨rfl, hlast⟩ := htake
  refine ⟨documents, s, s', rfl, rfl, ?_⟩
  rw [DocumentStream.view, DocumentStream.view, hlast.error_eq, hlast.isFinished_eq, hlast.readers.peers.face_eq]

/-- One byte at a time and with interruptions, or in one piece: the source fails in the second document. -/
theorem perform_eq_of_content_bytewise :
    ∃ source source' actions c c',
      source = Source.ofBytes [8, 0, 0, 0, 10, 97, 0, 0, 12, 0, 0, 0, 16] 1 (some (13, "reset")) true ∧
      source' = Source.ofBytes [8, 0, 0, 0, 10, 97, 0, 0, 12, 0, 0, 0, 16] 8192 (some (13, "reset")) ∧
      (source.deliveries.length = 26 ∧ source'.deliveries.length = 1) ∧
      actions = [.operate (.take 0), .readDocument, .operate (.call .startDocument), .operate (.call .readType),
        .operate (.call .readName), .operate (.returnTo 0), .operate (.call .skipValue), .close] ∧
      c = Client.ofSource source {} 0 (fun _ => none) ∧ c' = Client.ofSource source' {} 0 (fun _ => none) ∧
      (source.content = source'.content ∧ source.ending = source'.ending) ∧
      (c.perform actions).1 = (c'.perform actions).1 ∧ decodeStream source = decodeStream source' := by
  have hforeign : ∀ slot b, (fun _ => none : Nat → Option Bookmark) slot = some b → b.reader ≠ 0 := nofun
  refine ⟨_, _, _, _, _, rfl, rfl, by decide +kernel, rfl, rfl, rfl, ⟨?content, ?ending⟩,
    (perform_eq_of_content ?content ?ending {} 0 hforeign _ rfl rfl).imp_right And.right⟩
  case content => decide +kernel
  case ending => decide +kernel

end Aggregation.Wire
