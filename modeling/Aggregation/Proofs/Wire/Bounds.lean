import Aggregation.Proofs.Wire.Bookmarks
import Aggregation.Proofs.Wire.Exactness
import Aggregation.Proofs.Wire.Refusals

/-! The arithmetic of a reader never fails. However its client reads, takes bookmarks, goes back to them and drops
them, its cursor lies within the bytes that it keeps, no pin lies before them, and the containers that are open start
in order and no later than the next unread byte. -/

namespace Aggregation.Wire

open Stepping

namespace Reader

/-- Containers start no later than a position, and none starts later than one inside it. -/
structure Nested (position : Nat) (frames : List Frame) : Prop where
  le_position : ∀ frame ∈ frames, frame.start ≤ position
  ordered : frames.Pairwise fun inner outer => outer.start ≤ inner.start

/-- A reader over a feed whose containers started where it has been. -/
structure Bounded (feed : Feed) (r : Reader) : Prop where
  window : r.input.Window feed
  nested : Nested r.position r.frames

/-- The parts of a reader that its bounds are about. -/
def extent (r : Reader) : ReplayBuffer × List Frame := (r.input, r.frames)

variable {p q : Nat} {frame frame' : Frame} {frames : List Frame} {feed : Feed} {r t : Reader}

theorem nested_nil : Nested p [] := ⟨nofun, .nil⟩

theorem Nested.mono (h : Nested p frames) (hle : p ≤ q) : Nested q frames :=
  ⟨fun frame hframe => Nat.le_trans (h.le_position frame hframe) hle, h.ordered⟩

theorem Nested.push (h : Nested p frames) (hle : p ≤ q) (hstart : frame.start = p) : Nested q (frame :: frames) := by
  refine ⟨List.forall_mem_cons.2 ⟨hstart ▸ hle, (h.mono hle).le_position⟩, List.pairwise_cons.2 ⟨?_, h.ordered⟩⟩
  rw [hstart]
  exact h.le_position

theorem Nested.pop (h : Nested p (frame :: frames)) : Nested p frames :=
  ⟨fun f hf => h.le_position f (List.mem_cons_of_mem _ hf), (List.pairwise_cons.1 h.ordered).2⟩

/-- What else is known of the innermost container does not matter. -/
theorem Nested.replace (h : Nested p (frame :: frames)) (hstart : frame'.start = frame.start) :
    Nested p (frame' :: frames) := by
  obtain ⟨hframe, hframes⟩ := List.forall_mem_cons.1 h.le_position
  obtain ⟨hinner, hordered⟩ := List.pairwise_cons.1 h.ordered
  rw [← hstart] at hframe hinner
  exact ⟨List.forall_mem_cons.2 ⟨hframe, hframes⟩, List.pairwise_cons.2 ⟨hinner, hordered⟩⟩

theorem Bounded.of_extent (h : Bounded feed r) (ht : t.extent = r.extent) : Bounded feed t := by
  obtain ⟨hinput, hframes⟩ := Prod.mk.inj ht
  refine ⟨hinput ▸ h.window, ?_⟩
  rw [hframes, position, hinput]
  exact h.nested

end Reader

namespace Checked

open Reader (Nested Bounded extent)

variable {α β : Type} {feed : Feed} {r t : Reader}

/-! ## Steps that open and close nothing -/

theorem exact_onInput {x : Checked ReplayBuffer α} {y : Replay α} (hx : Exact ReplayBuffer.Window x y)
    (hy : y.Steady) : Exact Bounded (onInput x) (Read.onInput y) := by
  intro feed r h
  obtain ⟨hrun, hwindow⟩ := hx feed r.input h.window
  have hrun : x r.input = some (y.run.run r.input) := hrun
  refine ⟨?_, hwindow, h.nested.mono (window_of_steady hy h.window).2⟩
  show onInput x r = _
  rw [onInput, hrun]
  rfl

/-- A step without arithmetic keeps the bounds if it leaves alone what they are about. -/
theorem exact_lift {y : Read α} (hy : Keeps extent y) : Exact Bounded (liftM y) y :=
  fun _ r h => sameAt_lift (h.of_extent (hy r))

theorem exact_modify {change : Reader → Reader} (h : ∀ r, (change r).extent = r.extent) :
    Exact Bounded (modify change) (modify change) := fun _ r hr => sameAt_modify (hr.of_extent (h r))

theorem Exact.discard {x : Checked Reader α} {y : Read α} (h : Exact Bounded x y) :
    Exact Bounded (discard x) (discard y) := by
  rw [discard_eq_bind, discard_eq_bind]
  exact h.bind fun _ => exact_pure ()

theorem keeps_refuse (operation : String) : Keeps extent (Read.refuse operation : Read α) := fun _ => rfl

theorem keeps_expectType (operation : String) (expected : ElementType) :
    Keeps extent (Read.expectType operation expected) := by
  apply keeps_get_bind
  intro r
  cases r.currentType with
  | none => rfl
  | some actual => exact keeps_ite (keeps_pure ()) (keeps_throw _) r

theorem exact_ensureOpen : Exact Bounded (liftM Read.ensureOpen) Read.ensureOpen :=
  exact_lift (keeps_get_bind fun r => keeps_ite (keeps_throw _) (keeps_pure ()) r)

theorem exact_refuse (operation : String) :
    Exact Bounded (liftM (Read.refuse operation : Read α)) (Read.refuse operation) :=
  exact_lift (keeps_refuse operation)

theorem exact_expectType (operation : String) (expected : ElementType) :
    Exact Bounded (liftM (Read.expectType operation expected)) (Read.expectType operation expected) :=
  exact_lift (keeps_expectType operation expected)

theorem exact_beginValue (operation : String) (expected : ElementType) :
    Exact Bounded (liftM (Read.beginValue operation expected)) (Read.beginValue operation expected) := by
  have hexpect := keeps_expectType operation expected
  apply exact_lift
  refine Keeps.bind (keeps_get_bind fun r => keeps_ite (keeps_throw _) (keeps_pure ()) r) fun _ => ?_
  exact keeps_get_bind fun r => keeps_ite ((keeps_refuse operation).bind fun _ => hexpect) hexpect r

theorem exact_endValue : Exact Bounded (liftM Read.endValue) Read.endValue := exact_lift fun _ => rfl

theorem exact_offset : Exact Bounded (liftM Read.offset) Read.offset := exact_lift fun _ => rfl

theorem exact_record (entry : Log.Entry) : Exact Bounded (liftM (Read.record entry)) (Read.record entry) :=
  exact_lift fun _ => rfl

theorem exact_outOfBytes :
    Exact Bounded (onInput (liftM (Replay.outOfBytes (α := α)))) (Read.onInput Replay.outOfBytes) :=
  fun _ _ h => ⟨rfl, h⟩

/-! ## Lengths -/

theorem exact_length (minimum : Int) : Exact Bounded (length minimum) (Read.length minimum) := by
  refine exact_offset.bind fun start => (exact_onInput exact_int32 Replay.steady_int32).bind fun n => ?_
  refine exact_check (exact_throw _) fun _ => exact_get_bind fun r => ?_
  exact exact_check (exact_throw _) fun _ => exact_pure _

/-- What follows a length finds it no less than the minimum. -/
theorem exact_length_bind {minimum : Int} {f : Int32 → Checked Reader β} {g : Int32 → Read β}
    (h : ∀ n : Int32, minimum ≤ n.toInt → Exact Bounded (f n) (g n)) :
    Exact Bounded (length minimum >>= f) (Read.length minimum >>= g) := by
  intro feed r hr
  refine (exact_length minimum feed r hr).bind fun n t hrun ht => ?_
  exact h n (Reader.length_run_iff.1 hrun).2.1 feed t ht

theorem size_eq {n : Int32} (h : 0 ≤ n.toInt) : size n = some n.toInt.toNat := by
  rw [size]
  cases hn : n.toInt with
  | ofNat n => rfl
  | negSucc n => omega

/-- What follows a length that is not negative takes it as a number of bytes. -/
theorem exact_size_bind {minimum : Int} (hminimum : 0 ≤ minimum) {f : Nat → Checked Reader β} {g : Int32 → Read β}
    (h : ∀ n : Int32, minimum ≤ n.toInt → Exact Bounded (f n.toInt.toNat) (g n)) :
    Exact Bounded (length minimum >>= fun n => liftM (size n) >>= f) (Read.length minimum >>= g) :=
  exact_length_bind fun n hn => exact_some_bind (size_eq (Int.le_trans hminimum hn)) (h n hn)

/-- Two lengths that are not negative are at most 32 bits apart. -/
theorem lengthDifference_eq {n : Int32} (h : 0 ≤ n.toInt) : lengthDifference n.toInt 4 = some (n.toInt - 4) := by
  have hlt := n.toInt_lt
  exact if_pos ⟨by omega, by omega⟩

/-! ## Containers -/

theorem exact_openContainer (kind : FrameKind) : Exact Bounded (openContainer kind) (Read.openContainer kind) := by
  intro feed r h
  apply sameAt_get_bind
  refine sameAt_ite (fun _ => sameAt_throw h) fun _ => ?_
  refine (exact_length 0 feed r h).bind fun declared t hrun ht => sameAt_modify ⟨ht.window, ?_⟩
  obtain ⟨input, rfl, hahead⟩ := Reader.ahead_of_length h.window hrun
  apply h.nested.push _ rfl
  calc r.position ≤ r.position + 4 := Nat.le_add_right _ _
    _ = input.position := hahead.position_eq.symm

theorem exact_closeContainer : Exact Bounded closeContainer Read.closeContainer := by
  intro feed r h
  apply sameAt_get_bind
  cases hframes : r.frames with
  | nil => exact exact_refuse _ feed r h
  | cons frame frames =>
      have hnested := h.nested
      rw [hframes] at hnested
      have hstart : frame.start ≤ r.position := hnested.le_position frame List.mem_cons_self
      refine (sameAt_set ⟨h.window, hnested.pop⟩).bind fun _ t _ ht => ?_
      apply sameAt_some_bind (Nat.psub_eq_sub hstart)
      exact exact_check (exact_throw _) (fun _ => exact_pure _) feed t ht

theorem exact_finishContainer : Exact Bounded finishContainer Read.finishContainer := by
  refine .bind (exact_modify fun _ => rfl) fun _ => exact_endValue.bind fun _ => ?_
  intro feed r h
  apply sameAt_get_bind
  refine sameAt_ite (fun _ => ?_) fun _ => sameAt_pure h
  have hreaches := h.window.reaches_compact
  refine sameAt_some_bind (compact_eq h.window) (sameAt_set ⟨hreaches.window, ?_⟩)
  rw [Reader.position, hreaches.position_eq]
  exact h.nested

theorem exact_startContainer (kind : FrameKind) : Exact Bounded (startContainer kind) (do
    Read.openContainer kind
    modify fun r => { r with state := .type }) :=
  (exact_openContainer kind).bind fun _ => exact_modify fun _ => rfl

theorem exact_startDocument : Exact Bounded startDocument Reader.startDocument := by
  refine exact_ensureOpen.bind fun _ => exact_get_bind fun r => ?_
  cases r.state with
  | initial | done | scopeDocument => exact (exact_pure _).bind exact_startContainer
  | value => exact (exact_expectType _ _).bind fun _ => (exact_pure _).bind exact_startContainer
  | _ => exact (exact_refuse _).bind exact_startContainer

theorem exact_endDocument : Exact Bounded endDocument Reader.endDocument := by
  refine exact_ensureOpen.bind fun _ => exact_get_bind fun r => ?_
  cases r.frames with
  | nil => exact exact_throw _
  | cons frame frames =>
      refine exact_check (exact_throw _) fun _ => exact_check (exact_throw _) fun _ => ?_
      refine exact_closeContainer.bind fun closed => exact_get_bind fun r => ?_
      exact exact_check exact_closeContainer.discard fun _ => exact_finishContainer

theorem exact_startArray : Exact Bounded startArray Reader.startArray :=
  (exact_beginValue _ _).bind fun _ => exact_startContainer .array

theorem exact_endArray : Exact Bounded endArray Reader.endArray := by
  refine exact_ensureOpen.bind fun _ => exact_get_bind fun r => ?_
  refine exact_check (exact_throw _) fun _ => exact_check (exact_throw _) fun _ => ?_
  exact exact_closeContainer.discard.bind fun _ => exact_finishContainer

/-! ## Tags and names -/

theorem exact_isAtEnd : Exact Bounded isAtEnd Reader.isAtEnd := by
  have hfill := exact_onInput (exact_fill 1) Replay.steady_hasRemaining
  refine exact_ensureOpen.bind fun _ => exact_get_bind fun r => ?_
  cases r.state with
  | initial | done => exact hfill.bind fun _ => exact_pure _
  | _ => exact exact_pure _

theorem exact_cstring_onInput : Exact Bounded (onInput cstring) (Read.onInput Replay.cstring) :=
  exact_onInput exact_cstring Replay.steady_cstring

theorem run_handled {x : Checked Reader β} {b : β} {result : Except WireError β}
    (h : x.run.run r = some (result, t)) :
    (tryCatch x fun _ => pure b : Checked Reader β).run.run r = some (.ok (result.toOption.getD b), t) := by
  have hrun : StateT.run x r = some (result, t) := h
  simp only [tryCatch, tryCatchThe, MonadExceptOf.tryCatch, ExceptT.tryCatch, ExceptT.run_mk, StateT.run_bind]
  rw [hrun]
  cases result <;> rfl

/-- Where a step fails, something else is given. -/
theorem run_map_handled {x : Checked Reader α} {y : Read α} (hx : x.run.run r = some (y.run.run r)) (f : α → β)
    (b : β) :
    (tryCatch (f <$> x) fun _ => pure b : Checked Reader β).run.run r =
      some (.ok (((y.run.run r).1.toOption.map f).getD b), (y.run.run r).2) := by
  rcases hy : y.run.run r with ⟨e | a, t⟩
  · rw [hy] at hx
    have hmap : (f <$> x).run.run r = some (.error e, t) := by rw [map_eq_pure_bind, run_bind_error hx]
    exact run_handled hmap
  · rw [hy] at hx
    have hmap : (f <$> x).run.run r = some (.ok (f a), t) := by
      rw [map_eq_pure_bind, run_bind_ok hx]
      rfl
    exact run_handled hmap

theorem exact_offendingName : Exact Bounded offendingName Read.offendingName := by
  intro feed r h
  obtain ⟨hrun, hbounded⟩ := exact_cstring_onInput feed r h
  have hname := run_map_handled hrun Utf8.lossy "?"
  rw [SameAt, Read.offendingName_run, offendingName, run_get_bind]
  cases hframes : r.frames with
  | nil => exact ⟨rfl, h⟩
  | cons frame frames =>
      obtain ⟨kind, start, declared, part, index⟩ := frame
      cases kind with
      | array | scopedCode => exact ⟨rfl, h⟩
      | document | scopeDocument => exact ⟨hname, hbounded⟩

theorem exact_elementTag (tag : UInt8) : Exact Bounded (elementTag tag) (Read.elementTag tag) := by
  rw [elementTag, Read.elementTag]
  cases ElementType.ofTag? tag with
  | some type => exact .bind (exact_modify fun _ => rfl) fun _ => exact_pure _
  | none =>
      refine exact_offendingName.bind fun leaf => exact_get_bind fun r => ?_
      exact (exact_record _).bind fun _ => exact_throw _

theorem exact_innerTag (tag : UInt8) : Exact Bounded (innerTag tag) (Read.innerTag tag) := by
  intro feed r h
  apply sameAt_get_bind
  cases hframes : r.frames with
  | nil => exact exact_refuse _ feed r h
  | cons frame frames =>
      have hnested := h.nested
      rw [hframes] at hnested
      refine sameAt_ite (fun _ => ?_) fun _ => sameAt_ite (fun _ => ?_) fun _ => exact_elementTag tag feed r h
      · exact (sameAt_modify (h.of_extent rfl)).bind fun _ _ _ ht => sameAt_pure ht
      · refine (sameAt_modify ⟨h.window, hnested.replace rfl⟩).bind fun _ t _ ht => ?_
        exact exact_elementTag tag feed t ht

theorem exact_readType : Exact Bounded readType Reader.readType := by
  refine exact_ensureOpen.bind fun _ => exact_get_bind fun r => ?_
  cases r.state with
  | initial | done => exact .bind (exact_modify fun _ => rfl) fun _ => exact_pure _
  | type => exact (exact_onInput exact_byte Replay.steady_byte).bind exact_innerTag
  | _ => exact exact_refuse _

theorem exact_readName : Exact Bounded readName Reader.readName := by
  refine exact_ensureOpen.bind fun _ => exact_get_bind fun r => exact_check (exact_refuse _) fun _ => ?_
  refine exact_offset.bind fun start => exact_cstring_onInput.bind fun bytes => ?_
  cases Utf8.decode? bytes with
  | none => exact exact_throw _
  | some name => exact .bind (exact_modify fun _ => rfl) fun _ => exact_pure _

theorem exact_expectName (expected : String) : Exact Bounded (expectName expected) (Reader.expectName expected) := by
  refine exact_readName.bind fun actual => exact_ite (fun _ => ?_) fun _ => exact_pure ()
  exact exact_get_bind fun _ => exact_throw _

theorem exact_skipName : Exact Bounded skipName Reader.skipName := by
  refine exact_ensureOpen.bind fun _ => exact_get_bind fun r => exact_check (exact_refuse _) fun _ => ?_
  exact exact_cstring_onInput.discard.bind fun _ => exact_modify fun _ => rfl

/-! ## Values -/

theorem exact_bytes_onInput (count : Nat) :
    Exact Bounded (onInput (bytes count)) (Read.onInput (Replay.bytes count)) :=
  exact_onInput (exact_bytes count) (Replay.steady_bytes count)

theorem exact_skippedSize (type : ElementType) : Exact Bounded (skippedSize type) (Reader.skippedSize type) := by
  cases type with
  | string | javaScript | symbol => exact exact_length_bind fun n hn => exact_some (size_eq (by omega))
  | dbPointer => exact exact_size_bind Int.one_nonneg fun _ _ => exact_pure _
  | document | array | scopedCode =>
      exact exact_size_bind (by omega) fun n hn => exact_some (Nat.psub_eq_sub (by omega))
  | binary => exact exact_size_bind (Int.le_refl 0) fun _ _ => exact_pure _
  | regularExpression =>
      have hcstring := exact_cstring_onInput.discard
      exact hcstring.bind fun _ => hcstring.bind fun _ => exact_pure _
  | endOfDocument => exact exact_refuse _
  | _ => exact exact_pure _

theorem exact_skipValue : Exact Bounded skipValue Reader.skipValue := by
  refine exact_ensureOpen.bind fun _ => exact_get_bind fun r => exact_check (exact_refuse _) fun _ => ?_
  refine exact_get_bind fun r => ?_
  cases r.currentType with
  | none => exact exact_refuse _
  | some type =>
      refine (exact_skippedSize type).bind fun size => ?_
      exact (exact_onInput (exact_skip size) (Replay.steady_skip size)).bind fun _ => exact_endValue

theorem exact_readScalar (operation : String) (type : ElementType) {x : Checked Reader α} {y : Read α}
    (h : Exact Bounded x y) : Exact Bounded (readScalar operation type x) (Reader.readScalar operation type y) :=
  (exact_beginValue operation type).bind fun _ => h.bind fun _ => exact_endValue.bind fun _ => exact_pure _

theorem exact_stringPayload : Exact Bounded stringPayload Reader.stringPayload := by
  refine exact_offset.bind fun start => exact_size_bind Int.one_nonneg fun size _ => ?_
  refine (exact_bytes_onInput _).bind fun bytes => exact_check (exact_throw _) fun _ => ?_
  cases Utf8.decode? bytes.dropLast with
  | none => exact exact_throw _
  | some text => exact exact_pure _

theorem exact_regexPart : Exact Bounded regexPart Reader.regexPart := by
  refine exact_offset.bind fun start => exact_cstring_onInput.bind fun bytes => ?_
  cases Utf8.decode? bytes with
  | none => exact exact_throw _
  | some text => exact exact_pure _

theorem exact_objectIdPayload : Exact Bounded objectIdPayload Reader.objectIdPayload := by
  refine (exact_bytes_onInput 12).bind fun bytes => ?_
  cases ObjectId.ofBytes? bytes with
  | none => exact exact_outOfBytes
  | some id => exact exact_pure _

theorem exact_decimal128Payload : Exact Bounded decimal128Payload Reader.decimal128Payload := by
  refine (exact_bytes_onInput 16).bind fun bytes => ?_
  cases Decimal128.ofBytes? bytes with
  | none => exact exact_outOfBytes
  | some d => exact exact_pure _

theorem exact_booleanPayload : Exact Bounded booleanPayload Reader.booleanPayload := by
  refine exact_offset.bind fun start => (exact_onInput exact_byte Replay.steady_byte).bind fun b => ?_
  exact exact_ite (fun _ => exact_pure _) fun _ => exact_ite (fun _ => exact_pure _) fun _ => exact_throw _

theorem exact_binaryPayload : Exact Bounded binaryPayload Reader.binaryPayload := by
  refine exact_offset.bind fun start => exact_length_bind fun outer houter => ?_
  refine (exact_onInput exact_byte Replay.steady_byte).bind fun subtype => exact_ite (fun _ => ?_) fun _ => ?_
  · refine (exact_onInput exact_int32 Replay.steady_int32).bind fun inner => ?_
    refine exact_some_bind (lengthDifference_eq houter) (exact_ite (fun _ => exact_throw_bind _) fun hinner => ?_)
    exact exact_some_bind (size_eq (by omega)) ((exact_bytes_onInput _).bind fun _ => exact_pure _)
  · exact exact_some_bind (size_eq houter) ((exact_bytes_onInput _).bind fun _ => exact_pure _)

theorem exact_readScopedCode : Exact Bounded readScopedCode Reader.readScopedCode := by
  refine (exact_beginValue _ _).bind fun _ => (exact_openContainer _).bind fun _ => ?_
  exact exact_stringPayload.bind fun code => .bind (exact_modify fun _ => rfl) fun _ => exact_pure _

theorem exact_read (call : Call) : Exact Bounded (read call) call.read := by
  cases call with
  | isAtEnd => exact exact_isAtEnd
  | readType => exact exact_readType
  | readName => exact exact_readName
  | expectName expected => exact exact_expectName expected
  | skipName => exact exact_skipName
  | startDocument => exact exact_startDocument
  | endDocument => exact exact_endDocument
  | startArray => exact exact_startArray
  | endArray => exact exact_endArray
  | skipValue => exact exact_skipValue
  | readDouble =>
      exact exact_readScalar _ _
        ((exact_onInput (exact_natural 8) (Replay.steady_natural 8)).bind fun _ => exact_pure _)
  | readString | readJavaScript | readSymbol => exact exact_readScalar _ _ exact_stringPayload
  | readBinary => exact exact_readScalar _ _ exact_binaryPayload
  | readUndefined | readNull | readMinKey | readMaxKey => exact exact_readScalar _ _ (exact_pure ())
  | readObjectId => exact exact_readScalar _ _ exact_objectIdPayload
  | readBoolean => exact exact_readScalar _ _ exact_booleanPayload
  | readDateTime | readInt64 => exact exact_readScalar _ _ (exact_onInput exact_int64 Replay.steady_int64)
  | readRegularExpression =>
      exact exact_readScalar _ _ (exact_regexPart.bind fun _ => exact_regexPart.bind fun _ => exact_pure _)
  | readDbPointer =>
      exact exact_readScalar _ _
        (exact_stringPayload.bind fun _ => exact_objectIdPayload.bind fun _ => exact_pure _)
  | readScopedCode => exact exact_readScopedCode
  | readInt32 => exact exact_readScalar _ _ (exact_onInput exact_int32 Replay.steady_int32)
  | readTimestamp =>
      exact exact_readScalar _ _
        ((exact_onInput (exact_natural 8) (Replay.steady_natural 8)).bind fun _ => exact_pure _)
  | readDecimal128 => exact exact_readScalar _ _ exact_decimal128Payload

/-- Going back is possible or refused, from anywhere and to anything. -/
theorem returnTo_run (b : Bookmark) (r : Reader) :
    (returnTo b).run.run r = some ((Reader.returnTo b).run.run r) := by
  have hreturn : SameAt (fun _ => True) (returnTo b) (Reader.returnTo b) r := by
    refine (sameAt_lift trivial).bind fun _ r _ _ => sameAt_get_bind ?_
    refine sameAt_ite (fun _ => ?_) fun _ => sameAt_some_bind (rewind_eq r.input b.pin.position) ?_
    · exact ⟨rfl, trivial⟩
    · cases r.input.rewind? b.pin.position with
      | none => exact ⟨rfl, trivial⟩
      | some input => exact sameAt_set trivial
  exact hreturn.1

end Checked

namespace Client

open Reader (Nested Bounded)

variable {o : Opening} {c : Client}

/-- A client whose reader keeps its bounds, also where one of its own bookmarks leads. -/
structure WithinBounds (o : Opening) (c : Client) : Prop where
  sound : c.Sound o
  nested : Nested c.reader.position c.reader.frames
  marked : ∀ {slot b}, c.Owns o slot b → Nested b.pin.position b.frames

theorem WithinBounds.bounded (h : c.WithinBounds o) : Bounded o.feed c.reader :=
  ⟨h.sound.reader_over.window, h.nested⟩

theorem withinBounds_ofSource (source : Source) (limits : Limits) (serial : Nat) {held : Nat → Option Bookmark}
    (hforeign : ∀ slot b, held slot = some b → b.reader ≠ serial) :
    (ofSource source limits serial held).WithinBounds ⟨source.feed, serial, limits⟩ where
  sound := sound_ofSource source limits serial hforeign
  nested := Reader.nested_nil
  marked h := absurd h.2 (hforeign _ _ h.1)

/-- Containers stay nested where a reader shows what it has shown before. -/
theorem nested_of_face {r : Reader} {face : Reader.Face} (h : r.face = face)
    (hnested : Nested face.position face.frames) : Nested r.position r.frames := by
  subst h
  exact hnested

/-- Where the same bookmarks are held, they lead to the same places. -/
theorem WithinBounds.marked_of_held (h : c.WithinBounds o) {c' : Client} (hkept : c'.held = c.held) {slot : Nat}
    {b : Bookmark} (howns : c'.Owns o slot b) : Nested b.pin.position b.frames := by
  rw [Owns, hkept] at howns
  exact h.marked howns

theorem WithinBounds.call (h : c.WithinBounds o) (call : Call) :
    c.checkedStep (.call call) = some (c.step (.call call)) ∧ (c.step (.call call)).2.WithinBounds o := by
  obtain ⟨hrun, hbounded⟩ := Checked.exact_read call o.feed c.reader h.bounded
  refine ⟨?_, h.sound.step (.call call), hbounded.nested, h.marked⟩
  rw [checkedStep, hrun]
  rfl

theorem WithinBounds.take (h : c.WithinBounds o) (slot : Nat) : (c.step (.take slot)).2.WithinBounds o := by
  obtain ⟨c', hstep, hsound, hheld, hface⟩ := step_take h.sound slot
  rw [hstep]
  refine ⟨hsound, nested_of_face hface h.nested, fun {slot' b} howns => ?_⟩
  obtain ⟨hb, hreader⟩ := howns
  rw [hheld, Function.update_apply] at hb
  by_cases hslot : slot' = slot
  · rw [if_pos hslot] at hb
    cases hb
    exact h.nested
  · rw [if_neg hslot] at hb
    exact h.marked ⟨hb, hreader⟩

theorem WithinBounds.drop (h : c.WithinBounds o) (slot : Nat) : (c.drop slot).WithinBounds o :=
  ⟨h.sound.drop slot, nested_of_face (drop_face c slot) h.nested, fun howns => h.marked (owns_drop howns).2⟩

theorem WithinBounds.returnTo (h : c.WithinBounds o) (slot : Nat) :
    c.checkedStep (.returnTo slot) = some (c.step (.returnTo slot)) ∧
      (c.step (.returnTo slot)).2.WithinBounds o := by
  rcases hheld : c.held slot with _ | b
  · rw [step_returnTo_none hheld, checkedStep, hheld]
    exact ⟨rfl, h⟩
  · constructor
    · simp only [checkedStep, step, hheld, Checked.returnTo_run]
      rfl
    -- only a bookmark of its own moves the reader
    · by_cases hreader : b.reader = o.serial
      · obtain ⟨c', hstep, hsound, hkept, hface⟩ := step_returnTo h.sound ⟨hheld, hreader⟩
        rw [hstep]
        exact ⟨hsound, nested_of_face hface (h.marked ⟨hheld, hreader⟩), h.marked_of_held hkept⟩
      · obtain ⟨c', hstep, hsound, hkept, hface⟩ := step_returnTo_other h.sound hheld hreader
        rw [hstep]
        exact ⟨hsound, nested_of_face hface h.nested, h.marked_of_held hkept⟩

/-- No arithmetic of an operation fails, and it keeps the bounds. -/
theorem WithinBounds.step (h : c.WithinBounds o) (operation : Operation) :
    c.checkedStep operation = some (c.step operation) ∧ (c.step operation).2.WithinBounds o := by
  cases operation with
  | call call => exact h.call call
  | take slot => exact ⟨rfl, h.take slot⟩
  | returnTo slot => exact h.returnTo slot
  | drop slot => exact ⟨rfl, h.drop slot⟩

theorem WithinBounds.run (h : c.WithinBounds o) (operations : List Operation) :
    c.checkedRun operations = some (c.run operations) ∧ (c.run operations).2.WithinBounds o := by
  induction operations generalizing c with
  | nil => exact ⟨rfl, h⟩
  | cons operation later ih =>
      obtain ⟨hstep, hnext⟩ := h.step operation
      obtain ⟨hrun, hlast⟩ := ih hnext
      refine ⟨?_, hlast⟩
      simp only [checkedRun, hstep, Option.bind_eq_bind, Option.bind_some, hrun]
      rfl

/-- Whatever a client does with a reader, no difference that the reader computes falls below zero, no length that it
takes as a number of bytes is negative and no slice that it takes is out of range. Its cursor lies within the bytes
that it keeps, every pin lies at or after the first of them, and the containers that are open start in order and no
later than the next unread byte. -/
theorem checkedRun_eq (source : Source) (limits : Limits) (serial : Nat) {foreign : Nat → Option Bookmark}
    (hforeign : ∀ slot b, foreign slot = some b → b.reader ≠ serial) (operations : List Operation) {c last : Client}
    (hc : c = ofSource source limits serial foreign) (hlast : last = (c.run operations).2) :
    c.checkedRun operations = some (c.run operations) ∧
      last.reader.input.cursor ≤ last.reader.input.buffer.size ∧
      (∀ pin ∈ last.reader.input.pins, last.reader.input.base ≤ pin.position) ∧
      (∀ frame ∈ last.reader.frames, frame.start ≤ last.reader.position) ∧
      last.reader.frames.Pairwise fun inner outer => outer.start ≤ inner.start := by
  subst hc hlast
  obtain ⟨hrun, hbounds⟩ := (withinBounds_ofSource source limits serial hforeign).run operations
  have hwindow := hbounds.bounded.window
  exact ⟨hrun, hwindow.cursor_le, fun pin hpin => (hwindow.pinned pin hpin).1, hbounds.nested.le_position,
    hbounds.nested.ordered⟩

/-- A bookmark leads back into a document of which the first bytes have been forgotten, and one of another reader
leads nowhere. -/
theorem checkedRun_eq_forgottenStart :
    ∃ foreign c last operations,
      foreign = ⟨1, ⟨0, 90⟩, .type, none, none, [⟨.document, 86, 5, none, -1⟩]⟩ ∧
      c = ofSource (.ofBytes [5, 0, 0, 0, 0, 5, 0, 0, 0, 0] 3 (some (10, "reset")) true) {} 0
        (fun _ => some foreign) ∧
      operations = [.call .startDocument, .take 0, .call .readType, .call .endDocument, .call .startDocument,
        .returnTo 1, .returnTo 0] ∧
      last = (c.run operations).2 ∧
      (last.reader.input.base = 4 ∧ last.reader.frames.map Frame.start = [0] ∧ last.reader.position = 4) ∧
      c.checkedRun operations = some (c.run operations) ∧
      last.reader.input.cursor ≤ last.reader.input.buffer.size ∧
      (∀ pin ∈ last.reader.input.pins, last.reader.input.base ≤ pin.position) ∧
      (∀ frame ∈ last.reader.frames, frame.start ≤ last.reader.position) ∧
      last.reader.frames.Pairwise fun inner outer => outer.start ≤ inner.start := by
  refine ⟨_, _, _, _, rfl, rfl, rfl, rfl, by decide +kernel, checkedRun_eq _ {} 0 ?_ _ rfl rfl⟩
  rintro _ _ ⟨⟩
  decide

end Client

end Aggregation.Wire
