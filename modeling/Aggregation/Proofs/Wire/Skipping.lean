import Aggregation.Proofs.Wire.Extents

/-! Skipping where reading succeeds. Whatever is read between the length of a container and its end, the containers that
are open around it stay open, and closing it says that it has taken as many bytes as it declared. So a value that can be
read can be passed over, and the reader is in the same place after either. -/

namespace Aggregation.Wire

open Stepping

namespace Reader

open Read

variable {feed : Feed} {r s t : Reader} {frame around : Frame} {frames outer : List Frame} {type : ElementType}
  {count : Nat} {n : Int32}

/-- A reader further on over a feed, which has forgotten nothing and logged nothing. -/
structure Onward (feed : Feed) (r t : Reader) : Prop where
  window : t.input.Window feed
  le_position : r.position ≤ t.position
  base_eq : t.input.base = r.input.base
  log_eq : t.log = r.log

theorem Onward.trans (h : Onward feed r s) (h' : Onward feed s t) : Onward feed r t :=
  ⟨h'.window, Nat.le_trans h.le_position h'.le_position, h'.base_eq.trans h.base_eq, h'.log_eq.trans h.log_eq⟩

theorem onward_of_input (h : r.input.Ahead feed count t.input) (hlog : t.log = r.log) : Onward feed r t := by
  refine ⟨h.window, ?_, h.base_eq, hlog⟩
  rw [position, position, h.position_eq]
  exact Nat.le_add_right _ _

/-- What was to be completed is completed, inside certain containers. Bytes are forgotten only where there are none. -/
structure Completed (feed : Feed) (r : Reader) (outer : List Frame) (t : Reader) : Prop where
  window : t.input.Window feed
  frames_eq : t.frames = outer
  state_eq : t.state = afterContainer outer
  base_eq : outer ≠ [] → t.input.base = r.input.base
  log_eq : t.log = r.log

/-- A value of a type has been read, and it takes as many bytes as if it were passed over. -/
structure Finished (feed : Feed) (type : ElementType) (r t : Reader) : Prop where
  completed : Completed feed r r.frames t
  spans : ∃ count, r.Spans feed type count ∧ t.position = r.position + count

theorem Finished.onward (h : Finished feed type r t) (hframes : r.frames ≠ []) : Onward feed r t := by
  obtain ⟨count, -, hposition⟩ := h.spans
  exact ⟨h.completed.window, hposition ▸ Nat.le_add_right _ _, h.completed.base_eq hframes, h.completed.log_eq⟩

/-! ## Steps that succeed -/

theorem eq_of_ensureOpen_run (hrun : ensureOpen.run.run r = (.ok (), t)) : t = r := by
  rw [ensureOpen, run_bind_ok (run_get r)] at hrun
  split at hrun
  · cases hrun
  · cases hrun
    rfl

theorem eq_of_expectType_run {operation : String} (hrun : (expectType operation type).run.run r = (.ok (), t)) :
    t = r := by
  rw [expectType, run_bind_ok (run_get r)] at hrun
  split at hrun
  · split at hrun
    · cases hrun
      rfl
    · cases hrun
  · exact absurd hrun (fails_refuse operation r).ne_ok

/-- An operation on an open reader. -/
theorem of_run_ensureOpen {α : Type} {k : Unit → Read α} {a : α}
    (hrun : (ensureOpen >>= k).run.run r = (.ok a, t)) : (k ()).run.run r = (.ok a, t) := by
  obtain ⟨_, s, hopen, hrest⟩ := exists_of_run_bind hrun
  rwa [eq_of_ensureOpen_run hopen] at hrest

theorem of_run_get {α : Type} {f : Reader → Read α} {a : α} (hrun : (get >>= f).run.run r = (.ok a, t)) :
    (f r).run.run r = (.ok a, t) := hrun

theorem of_run_beginValue {operation : String} {α : Type} {k : Unit → Read α} {a : α}
    (hrun : (beginValue operation type >>= k).run.run r = (.ok a, t)) : (k ()).run.run r = (.ok a, t) := by
  obtain ⟨_, s, hbegin, hrest⟩ := exists_of_run_bind hrun
  obtain ⟨-, hexpect⟩ := of_run_check (fails_refuse operation r) (of_run_get (of_run_ensureOpen hbegin))
  rwa [eq_of_expectType_run hexpect] at hrest

theorem finished_of_readScalar {α : Type} {operation : String} {payload : Read α} {a : α}
    (hpayload : Measures type payload) (h : r.input.Window feed)
    (hrun : (readScalar operation type payload).run.run r = (.ok a, t)) : Finished feed type r t := by
  obtain ⟨a, s, hread, hrest⟩ := exists_of_run_bind (of_run_beginValue hrun)
  rw [run_bind_ok (endValue_run_eq s)] at hrest
  cases hrest
  obtain ⟨count, hspans, input, rfl, hinput⟩ := hpayload h hread
  exact ⟨⟨hinput.window, rfl, rfl, fun _ => hinput.base_eq, rfl⟩, count, hspans, hinput.position_eq⟩

/-- A container has been opened by reading its length. -/
structure Opens (feed : Feed) (kind : FrameKind) (frame : Frame) (r t : Reader) : Prop where
  kind_eq : frame.kind = kind
  start_eq : frame.start = r.position
  length_run : ∃ s, (length 0).run.run r = (.ok frame.declared, s)
  frames_eq : t.frames = frame :: r.frames
  ahead : r.input.Ahead feed 4 t.input
  log_eq : t.log = r.log

theorem Opens.onward {kind : FrameKind} (h : Opens feed kind frame r t) : Onward feed r t :=
  onward_of_input h.ahead h.log_eq

theorem opens_of_openContainer {kind : FrameKind} (h : r.input.Window feed)
    (hrun : (openContainer kind).run.run r = (.ok (), t)) : ∃ frame, Opens feed kind frame r t ∧ t.state = r.state := by
  obtain ⟨-, hrun⟩ := of_run_check (fails_throw _ _) (of_run_get hrun)
  obtain ⟨declared, s, hlength, hrest⟩ := exists_of_run_bind hrun
  obtain ⟨input, rfl, hinput⟩ := ahead_of_length h hlength
  cases hrest
  exact ⟨_, ⟨rfl, rfl, ⟨_, hlength⟩, rfl, hinput, rfl⟩, rfl⟩

theorem opens_of_startContainer {kind : FrameKind} (h : r.input.Window feed)
    (hrun : (openContainer kind >>= fun _ => modify fun r => { r with state := .type }).run.run r = (.ok (), t)) :
    ∃ frame, Opens feed kind frame r t ∧ t.state = .type := by
  obtain ⟨_, s, hopen, hrest⟩ := exists_of_run_bind hrun
  obtain ⟨frame, hopens, -⟩ := opens_of_openContainer h hopen
  cases hrest
  refine ⟨frame, ⟨hopens.kind_eq, hopens.start_eq, hopens.length_run, hopens.frames_eq, ?_, hopens.log_eq⟩, rfl⟩
  exact hopens.ahead

theorem opens_of_startDocument (h : r.input.Window feed) (hstate : r.state = .value ∨ r.state = .scopeDocument)
    (hrun : startDocument.run.run r = (.ok (), t)) :
    ∃ frame, Opens feed r.entering frame r t ∧ t.state = .type := by
  have hrun := of_run_get (of_run_ensureOpen hrun)
  rcases hstate with hstate | hstate
  · rw [hstate] at hrun
    obtain ⟨_, s, hexpect, hrest⟩ := exists_of_run_bind hrun
    obtain rfl := eq_of_expectType_run hexpect
    rw [entering, if_neg (by rw [hstate]; decide)]
    exact opens_of_startContainer h hrest
  · rw [hstate] at hrun
    rw [entering, if_pos hstate]
    exact opens_of_startContainer h hrun

/-- A tag that is known decides the type, and leaves the containers as they are. -/
theorem of_run_elementTag {tag : UInt8} (hrun : (elementTag tag).run.run r = (.ok type, t)) :
    t = { r with currentType := some type, currentName := none, state := .name } := by
  rw [elementTag] at hrun
  split at hrun
  · cases hrun
    rfl
  · obtain ⟨leaf, s, -, hthrow⟩ := exists_of_run_bind hrun
    cases hthrow

/-- What reading a type comes to: a document is about to be entered, or a tag has been read. -/
theorem exists_of_readType_run (hrun : readType.run.run r = (.ok type, t)) :
    type = .document ∧ (r.state = .initial ∨ r.state = .done) ∧
        t = { r with currentType := some .document, currentName := none, state := .value } ∨
      ∃ tag s frame frames, (onInput Replay.byte).run.run r = (.ok tag, s) ∧ s.frames = frame :: frames ∧
        (type = .endOfDocument ∧ t = { s with
            currentType := some .endOfDocument
            currentName := none
            state := if frame.kind = .array then .endOfArray else .endOfDocument } ∨
          t = { s with
            currentType := some type, currentName := none, state := .name, frames := passed frame :: frames }) := by
  have hrun := of_run_get (of_run_ensureOpen hrun)
  split at hrun
  · next hstate =>
      cases hrun
      exact .inl ⟨rfl, .inl hstate, rfl⟩
  · next hstate =>
      cases hrun
      exact .inl ⟨rfl, .inr hstate, rfl⟩
  · obtain ⟨tag, s, hbyte, hrest⟩ := exists_of_run_bind hrun
    have hrest := of_run_get hrest
    cases hframes : s.frames with
    | nil =>
        rw [hframes] at hrest
        exact absurd hrest (fails_refuse _ s).ne_ok
    | cons frame frames =>
        rw [hframes] at hrest
        refine .inr ⟨tag, s, frame, frames, hbyte, hframes, ?_⟩
        dsimp only at hrest
        split at hrest
        · cases hrest
          exact .inl ⟨rfl, rfl⟩
        · split at hrest
          · next harray =>
              obtain ⟨_, u, hcount, hrest⟩ := exists_of_run_bind hrest
              cases hcount
              have hpassed : passed frame = { frame with index := frame.index + 1 } := if_pos harray
              rw [hpassed]
              exact .inr (of_run_elementTag hrest)
          · next harray =>
              have hpassed : passed frame = frame := if_neg harray
              rw [hpassed, ← hframes]
              exact .inr (of_run_elementTag hrest)
  · exact absurd hrun (fails_refuse _ r).ne_ok

/-- A tag decides the type. -/
theorem currentType_of_readType_run (hrun : readType.run.run r = (.ok type, t)) : t.currentType = some type := by
  rcases exists_of_readType_run hrun with ⟨rfl, -, rfl⟩ | ⟨tag, s, frame, frames, -, -, ⟨rfl, rfl⟩ | rfl⟩
  · rfl
  · rfl
  · rfl

/-- The tag of an element, and what is counted of it. -/
theorem of_run_readType (h : r.input.Window feed) (hstate : r.state = .type) (hframes : r.frames = frame :: frames)
    (hrun : readType.run.run r = (.ok type, t)) :
    Onward feed r t ∧ r.position < t.position ∧ ∃ index, t.frames = { frame with index } :: frames := by
  rcases exists_of_readType_run hrun with ⟨-, htop, -⟩ | ⟨tag, s, frame', frames', hbyte, hs, hend⟩
  · rw [hstate] at htop
    exact absurd htop (by decide)
  · obtain ⟨input, rfl, hinput⟩ := ahead_of_byte h hbyte
    have hlt : r.position < input.position := Nat.lt_of_succ_le (Nat.le_of_eq hinput.position_eq.symm)
    obtain ⟨rfl, rfl⟩ := List.cons.inj (hframes.symm.trans hs)
    rcases hend with ⟨-, rfl⟩ | rfl
    · exact ⟨onward_of_input hinput rfl, hlt, frame.index, hframes⟩
    · refine ⟨onward_of_input hinput rfl, hlt, ?_⟩
      dsimp only
      rw [passed]
      split
      · exact ⟨frame.index + 1, rfl⟩
      · exact ⟨frame.index, rfl⟩

/-- The name of an element has been read or passed over. -/
structure Announced (feed : Feed) (r t : Reader) : Prop where
  onward : Onward feed r t
  frames_eq : t.frames = r.frames
  state_eq : t.state = .value
  type_eq : t.currentType = r.currentType

theorem announced_of_readName {name : String} (h : r.input.Window feed) (hrun : readName.run.run r = (.ok name, t)) :
    Announced feed r t := by
  obtain ⟨-, hrun⟩ := of_run_check (fails_refuse _ r) (of_run_get (of_run_ensureOpen hrun))
  rw [run_bind_ok (offset_run r)] at hrun
  obtain ⟨bytes, s, hread, hrest⟩ := exists_of_run_bind hrun
  obtain ⟨count, input, rfl, hinput⟩ := exists_ahead_of_onInput Replay.steady_cstring h hread
  split at hrest
  · cases hrest
  · cases hrest
    exact ⟨onward_of_input hinput rfl, rfl, rfl, rfl⟩

theorem announced_of_skipName (h : r.input.Window feed) (hrun : skipName.run.run r = (.ok (), t)) :
    Announced feed r t := by
  obtain ⟨-, hrun⟩ := of_run_check (fails_refuse _ r) (of_run_get (of_run_ensureOpen hrun))
  rw [discard_eq_bind] at hrun
  obtain ⟨_, s, hskip, hrest⟩ := exists_of_run_bind hrun
  obtain ⟨bytes, u, hread, hpure⟩ := exists_of_run_bind hskip
  obtain ⟨count, input, rfl, hinput⟩ := exists_ahead_of_onInput Replay.steady_cstring h hread
  cases hpure
  cases hrest
  exact ⟨onward_of_input hinput rfl, rfl, rfl, rfl⟩

theorem of_run_closeContainer {closed : Frame} (hframes : r.frames = frame :: frames)
    (hrun : closeContainer.run.run r = (.ok closed, t)) :
    closed = frame ∧ t = { r with frames } ∧ EndsAt frame r.position := by
  have hrun := of_run_get hrun
  simp only [hframes] at hrun
  rw [run_bind_ok (run_set _ _)] at hrun
  obtain ⟨hends, hrun⟩ := of_run_check (fails_throw _ _) hrun
  cases hrun
  exact ⟨rfl, rfl, not_not.1 hends⟩

theorem of_run_finishContainer (h : r.input.Window feed) (hrun : finishContainer.run.run r = (.ok (), t)) :
    Completed feed r r.frames t ∧ t.position = r.position := by
  rw [finishContainer, run_bind_ok (run_modify _ r), run_bind_ok (endValue_run_eq _)] at hrun
  have hrun := of_run_get hrun
  dsimp only at hrun
  split at hrun
  · next hempty =>
      cases hrun
      have hreaches := h.reaches_compact
      refine ⟨⟨hreaches.window, rfl, rfl, fun hne => ?_, rfl⟩, hreaches.position_eq⟩
      exact absurd (List.isEmpty_iff.1 hempty) hne
  · cases hrun
    exact ⟨⟨h, rfl, rfl, fun _ => rfl, rfl⟩, rfl⟩

/-- What `endDocument` and `endArray` come to. -/
structure Closed (feed : Feed) (frame : Frame) (r : Reader) (outer : List Frame) (t : Reader) : Prop where
  endsAt : EndsAt frame r.position
  completed : Completed feed r outer t
  position_eq : t.position = r.position

theorem closed_of_finishContainer (h : r.input.Window feed) (hends : EndsAt frame r.position)
    (hrun : finishContainer.run.run { r with frames := outer } = (.ok (), t)) : Closed feed frame r outer t := by
  have h' : ReplayBuffer.Window feed { r with frames := outer }.input := h
  obtain ⟨hcompleted, hposition⟩ := of_run_finishContainer h' hrun
  exact ⟨hends, ⟨hcompleted.window, hcompleted.frames_eq, hcompleted.state_eq, hcompleted.base_eq, hcompleted.log_eq⟩,
    hposition⟩

/-- Leaving a document closes it first. -/
theorem of_run_endDocument (hframes : r.frames = frame :: frames) (hrun : endDocument.run.run r = (.ok (), t)) :
    EndsAt frame r.position ∧
      (if frame.kind = .scopeDocument ∧ frames.head?.map Frame.kind = some .scopedCode then
        discard closeContainer >>= fun _ => finishContainer
      else finishContainer).run.run { r with frames } = (.ok (), t) := by
  have hrun := of_run_get (of_run_ensureOpen hrun)
  rw [hframes] at hrun
  obtain ⟨-, hrun⟩ := of_run_check (fails_throw _ _) hrun
  obtain ⟨-, hrun⟩ := of_run_check (fails_throw _ _) hrun
  obtain ⟨closed, s, hclose, hrest⟩ := exists_of_run_bind hrun
  obtain ⟨rfl, rfl, hends⟩ := of_run_closeContainer hframes hclose
  exact ⟨hends, of_run_get hrest⟩

theorem closed_of_endDocument (h : r.input.Window feed) (hframes : r.frames = frame :: frames)
    (hkind : frame.kind = .document) (hrun : endDocument.run.run r = (.ok (), t)) : Closed feed frame r frames t := by
  obtain ⟨hends, hrun⟩ := of_run_endDocument hframes hrun
  rw [if_neg (by rw [hkind]; simp)] at hrun
  exact closed_of_finishContainer h hends hrun

/-- A scope is left together with the code around it. -/
theorem closed_of_endScope (h : r.input.Window feed) (hframes : r.frames = frame :: around :: outer)
    (hkind : frame.kind = .scopeDocument) (haround : around.kind = .scopedCode)
    (hrun : endDocument.run.run r = (.ok (), t)) : Closed feed around r outer t := by
  obtain ⟨-, hrun⟩ := of_run_endDocument hframes hrun
  rw [if_pos ⟨hkind, by rw [List.head?_cons, Option.map_some, haround]⟩, discard_eq_bind] at hrun
  obtain ⟨_, s, hdiscard, hrest⟩ := exists_of_run_bind hrun
  obtain ⟨closed, u, hclose, hpure⟩ := exists_of_run_bind hdiscard
  obtain ⟨-, rfl, hends⟩ := of_run_closeContainer rfl hclose
  cases hpure
  exact closed_of_finishContainer h hends hrest

theorem closed_of_endArray (h : r.input.Window feed) (hframes : r.frames = frame :: frames)
    (hrun : endArray.run.run r = (.ok (), t)) : Closed feed frame r frames t := by
  have hrun := of_run_get (of_run_ensureOpen hrun)
  obtain ⟨-, hrun⟩ := of_run_check (fails_throw _ _) hrun
  obtain ⟨-, hrun⟩ := of_run_check (fails_throw _ _) hrun
  rw [discard_eq_bind] at hrun
  obtain ⟨_, s, hdiscard, hrest⟩ := exists_of_run_bind hrun
  obtain ⟨closed, u, hclose, hpure⟩ := exists_of_run_bind hdiscard
  obtain ⟨-, rfl, hends⟩ := of_run_closeContainer hframes hclose
  cases hpure
  exact closed_of_finishContainer h hends hrest

/-! ## Whole values -/

/-- A container takes as many bytes as it declares if it ends there. -/
theorem Opens.spans {kind : FrameKind} {p : Nat} (hopens : Opens feed kind frame r s) (h : r.input.Window feed)
    (hsize : skippedSize type = (do return (← length 5).toInt.toNat - 4)) (hends : EndsAt frame p)
    (hle : r.position + 5 ≤ p) : ∃ count, r.Spans feed type count ∧ p = r.position + count := by
  obtain ⟨u, hlength⟩ := hopens.length_run
  -- closing has compared what the container declares with what has been read of it
  have hends : ((p - r.position : Nat) : Int) = frame.declared.toInt := hopens.start_eq ▸ hends
  have hleast : 5 ≤ frame.declared.toInt := by omega
  refine ⟨_, spans_of_length h hsize (length_of_le hlength hleast), ?_⟩
  omega

/-- The elements of a container have been read, and its terminator. -/
structure Terminated (feed : Feed) (frame : Frame) (frames : List Frame) (r t : Reader) : Prop where
  onward : Onward feed r t
  lt_position : r.position < t.position
  frames_eq : ∃ index, t.frames = { frame with index } :: frames

/-- What has been counted of the elements of an array does not matter. -/
theorem Terminated.of_onward {index : Int} (h : Terminated feed { frame with index } frames s t)
    (hs : Onward feed r s) : Terminated feed frame frames r t :=
  ⟨hs.trans h.onward, Nat.lt_of_le_of_lt hs.le_position h.lt_position, h.frames_eq⟩

/-- From the opening of a container to its end. -/
theorem finished_of_closed {kind : FrameKind} (h : r.input.Window feed)
    (hsize : skippedSize type = (do return (← length 5).toInt.toNat - 4)) (hopens : Opens feed kind frame r s)
    (hread : Onward feed s t) (hlt : s.position < t.position) {u : Reader}
    (hclosed : Closed feed frame t r.frames u) : Finished feed type r u := by
  -- the length and a terminator, which is the least that passing over accepts
  have hle : r.position + 5 ≤ t.position := by
    have hposition : s.position = r.position + 4 := hopens.ahead.position_eq
    omega
  obtain ⟨count, hspans, hcount⟩ := hopens.spans h hsize hclosed.endsAt hle
  have honward := hopens.onward.trans hread
  refine ⟨⟨hclosed.completed.window, hclosed.completed.frames_eq, hclosed.completed.state_eq, fun hne => ?_, ?_⟩,
    count, hspans, hclosed.position_eq.trans hcount⟩
  · exact (hclosed.completed.base_eq hne).trans honward.base_eq
  · exact hclosed.completed.log_eq.trans honward.log_eq

/-- What the readers of a bounded number of steps come to where they succeed. -/
structure Succeeds (fuel : Nat) : Prop where
  value : ∀ {feed : Feed} {r t : Reader} {type : ElementType} {v : Value}, r.input.Window feed → r.state = .value →
    (readValueWithin fuel type).run.run r = (.ok v, t) → Finished feed type r t
  document : ∀ {feed : Feed} {r t : Reader} {d : Document}, r.input.Window feed → r.state = .value →
    (readDocumentWithin fuel).run.run r = (.ok d, t) → Finished feed .document r t
  scope : ∀ {feed : Feed} {r t : Reader} {around : Frame} {outer : List Frame} {d : Document},
    r.input.Window feed → r.state = .scopeDocument → r.frames = around :: outer → around.kind = .scopedCode →
      (readDocumentWithin fuel).run.run r = (.ok d, t) →
        ∃ s, Onward feed r s ∧ r.position < s.position ∧ Closed feed around s outer t
  fields : ∀ {feed : Feed} {r t : Reader} {frame : Frame} {frames : List Frame} {d d' : Document},
    r.input.Window feed → r.state = .type → r.frames = frame :: frames →
      (readFieldsWithin fuel d).run.run r = (.ok d', t) → Terminated feed frame frames r t
  array : ∀ {feed : Feed} {r t : Reader} {xs : List Value}, r.input.Window feed →
    (readArrayWithin fuel).run.run r = (.ok xs, t) → Finished feed .array r t
  items : ∀ {feed : Feed} {r t : Reader} {frame : Frame} {frames : List Frame} {xs : List Value},
    r.input.Window feed → r.state = .type → r.frames = frame :: frames →
      (readItemsWithin fuel).run.run r = (.ok xs, t) → Terminated feed frame frames r t

variable {fuel : Nat}

/-- What comes after the tag of an element, up to the next element or to the end. -/
theorem Succeeds.element (h : Succeeds fuel) {v : Value} (hframes : s.frames = frame :: frames)
    (hnamed : Announced feed r s) (hrun : (readValueWithin fuel type).run.run s = (.ok v, t)) :
    Onward feed r t ∧ t.frames = frame :: frames ∧ t.state = .type := by
  have hvalue := h.value hnamed.onward.window hnamed.state_eq hrun
  have hframes' := hvalue.completed.frames_eq.trans hframes
  refine ⟨hnamed.onward.trans (hvalue.onward (by rw [hframes]; exact List.cons_ne_nil _ _)), hframes', ?_⟩
  rw [hvalue.completed.state_eq, hframes]
  rfl

theorem Succeeds.readFields (h : Succeeds fuel) {d d' : Document} (hwindow : r.input.Window feed)
    (hstate : r.state = .type) (hframes : r.frames = frame :: frames)
    (hrun : (readFieldsWithin (fuel + 1) d).run.run r = (.ok d', t)) : Terminated feed frame frames r t := by
  rw [readFieldsWithin, run_bind_ok (offset_run r)] at hrun
  obtain ⟨type, s, htype, hrun⟩ := exists_of_run_bind hrun
  obtain ⟨htag, hlt, hframe⟩ := of_run_readType hwindow hstate hframes htype
  split at hrun
  · cases hrun
    exact ⟨htag, hlt, hframe⟩
  · obtain ⟨index, hframe⟩ := hframe
    obtain ⟨name, u, hread, hrun⟩ := exists_of_run_bind hrun
    obtain ⟨-, hrun⟩ := of_run_check (fails_throw _ _) hrun
    obtain ⟨v, w, hvalue, hrest⟩ := exists_of_run_bind hrun
    have hnamed := announced_of_readName htag.window hread
    obtain ⟨honward, hframe', htype'⟩ := h.element (hnamed.frames_eq.trans hframe) hnamed hvalue
    exact (h.fields honward.window htype' hframe' hrest).of_onward (htag.trans honward)

theorem Succeeds.readItems (h : Succeeds fuel) {xs : List Value} (hwindow : r.input.Window feed)
    (hstate : r.state = .type) (hframes : r.frames = frame :: frames)
    (hrun : (readItemsWithin (fuel + 1)).run.run r = (.ok xs, t)) : Terminated feed frame frames r t := by
  rw [readItemsWithin] at hrun
  obtain ⟨type, s, htype, hrun⟩ := exists_of_run_bind hrun
  obtain ⟨htag, hlt, hframe⟩ := of_run_readType hwindow hstate hframes htype
  split at hrun
  · cases hrun
    exact ⟨htag, hlt, hframe⟩
  · obtain ⟨index, hframe⟩ := hframe
    obtain ⟨_, u, hskip, hrun⟩ := exists_of_run_bind hrun
    obtain ⟨item, w, hvalue, hrun⟩ := exists_of_run_bind hrun
    obtain ⟨rest, x, hitems, hpure⟩ := exists_of_run_bind hrun
    cases hpure
    have hnamed := announced_of_skipName htag.window hskip
    obtain ⟨honward, hframe', htype'⟩ := h.element (hnamed.frames_eq.trans hframe) hnamed hvalue
    exact (h.items honward.window htype' hframe' hitems).of_onward (htag.trans honward)

theorem Succeeds.readDocument (h : Succeeds fuel) {d : Document} (hwindow : r.input.Window feed)
    (hstate : r.state = .value) (hrun : (readDocumentWithin (fuel + 1)).run.run r = (.ok d, t)) :
    Finished feed .document r t := by
  rw [readDocumentWithin] at hrun
  obtain ⟨_, s, hstart, hrun⟩ := exists_of_run_bind hrun
  obtain ⟨d', u, hfields, hrun⟩ := exists_of_run_bind hrun
  obtain ⟨_, v, hend, hpure⟩ := exists_of_run_bind hrun
  cases hpure
  obtain ⟨frame, hopens, htype⟩ := opens_of_startDocument hwindow (.inl hstate) hstart
  have hkind : frame.kind = .document := hopens.kind_eq.trans (if_neg (by rw [hstate]; decide))
  have hterminated := h.fields hopens.ahead.window htype hopens.frames_eq hfields
  obtain ⟨index, hframes⟩ := hterminated.frames_eq
  have hclosed := closed_of_endDocument hterminated.onward.window hframes hkind hend
  exact finished_of_closed hwindow rfl hopens hterminated.onward hterminated.lt_position
    ⟨hclosed.endsAt, hclosed.completed, hclosed.position_eq⟩

theorem Succeeds.readScope (h : Succeeds fuel) {d : Document} (hwindow : r.input.Window feed)
    (hstate : r.state = .scopeDocument) (hframes : r.frames = around :: outer) (haround : around.kind = .scopedCode)
    (hrun : (readDocumentWithin (fuel + 1)).run.run r = (.ok d, t)) :
    ∃ s, Onward feed r s ∧ r.position < s.position ∧ Closed feed around s outer t := by
  rw [readDocumentWithin] at hrun
  obtain ⟨_, s, hstart, hrun⟩ := exists_of_run_bind hrun
  obtain ⟨d', u, hfields, hrun⟩ := exists_of_run_bind hrun
  obtain ⟨_, v, hend, hpure⟩ := exists_of_run_bind hrun
  cases hpure
  obtain ⟨frame, hopens, htype⟩ := opens_of_startDocument hwindow (.inr hstate) hstart
  have hkind : frame.kind = .scopeDocument := hopens.kind_eq.trans (if_pos hstate)
  have hterminated := h.fields hopens.ahead.window htype hopens.frames_eq hfields
  obtain ⟨index, hframe⟩ := hterminated.frames_eq
  rw [hframes] at hframe
  have hlt := Nat.lt_of_le_of_lt hopens.onward.le_position hterminated.lt_position
  exact ⟨u, hopens.onward.trans hterminated.onward, hlt,
    closed_of_endScope hterminated.onward.window hframe hkind haround hend⟩

theorem Succeeds.readArray (h : Succeeds fuel) {xs : List Value} (hwindow : r.input.Window feed)
    (hrun : (readArrayWithin (fuel + 1)).run.run r = (.ok xs, t)) : Finished feed .array r t := by
  rw [readArrayWithin] at hrun
  obtain ⟨_, s, hstart, hrun⟩ := exists_of_run_bind hrun
  obtain ⟨xs', u, hitems, hrun⟩ := exists_of_run_bind hrun
  obtain ⟨_, v, hend, hpure⟩ := exists_of_run_bind hrun
  cases hpure
  obtain ⟨frame, hopens, htype⟩ := opens_of_startContainer hwindow (of_run_beginValue hstart)
  have hterminated := h.items hopens.ahead.window htype hopens.frames_eq hitems
  obtain ⟨index, hframes⟩ := hterminated.frames_eq
  have hclosed := closed_of_endArray hterminated.onward.window hframes hend
  exact finished_of_closed hwindow rfl hopens hterminated.onward hterminated.lt_position
    ⟨hclosed.endsAt, hclosed.completed, hclosed.position_eq⟩

theorem Succeeds.readScopedCode (h : Succeeds fuel) {v : Value} (hwindow : r.input.Window feed)
    (hrun : (do
      let code ← Reader.readScopedCode
      return Value.scopedCode code (← readDocumentWithin fuel)).run.run r = (.ok v, t)) :
    Finished feed .scopedCode r t := by
  obtain ⟨code, s, hcode, hrun⟩ := exists_of_run_bind hrun
  obtain ⟨d, u, hscope, hpure⟩ := exists_of_run_bind hrun
  cases hpure
  obtain ⟨_, s', hopen, hrun⟩ := exists_of_run_bind (of_run_beginValue hcode)
  obtain ⟨code', s'', hstring, hrun⟩ := exists_of_run_bind hrun
  cases hrun
  obtain ⟨around, hopens, -⟩ := opens_of_openContainer hwindow hopen
  obtain ⟨n, _, hlength, input, rfl, hinput⟩ := ahead_of_string hopens.ahead.window hstring
  have hcode : Onward feed s' { s' with input, state := .scopeDocument } := onward_of_input hinput rfl
  obtain ⟨w, honward, hlt, hclosed⟩ := h.scope hcode.window rfl hopens.frames_eq hopens.kind_eq hscope
  exact finished_of_closed hwindow rfl hopens (hcode.trans honward) (Nat.lt_of_le_of_lt hcode.le_position hlt) hclosed

/-- What is made of what a step reads has been read by it. -/
theorem finished_of_map {α β : Type} {x : Read α} {g : α → β} {b : β}
    (hx : ∀ {a t}, x.run.run r = (.ok a, t) → Finished feed type r t)
    (hrun : (do return g (← x)).run.run r = (.ok b, t)) : Finished feed type r t := by
  obtain ⟨a, s, hread, hpure⟩ := exists_of_run_bind hrun
  cases hpure
  exact hx hread

theorem Succeeds.readValue (h : Succeeds fuel) {v : Value} (hwindow : r.input.Window feed)
    (hstate : r.state = .value) (hrun : (readValueWithin (fuel + 1) type).run.run r = (.ok v, t)) :
    Finished feed type r t := by
  have hscalar {α : Type} {operation : String} {payload : Read α} (hpayload : Measures type payload) {g : α → Value}
      (hrun : (do return g (← readScalar operation type payload)).run.run r = (.ok v, t)) : Finished feed type r t :=
    finished_of_map (fun hread => finished_of_readScalar hpayload hwindow hread) hrun
  unfold readValueWithin at hrun
  cases type with
  | double => exact hscalar (Measures.map (measures_natural rfl) _) hrun
  | string => exact hscalar (measures_string rfl) hrun
  | document => exact finished_of_map (fun hread => h.document hwindow hstate hread) hrun
  | array => exact finished_of_map (fun hread => h.array hwindow hread) hrun
  | binary => exact hscalar (g := fun given => .binary given.1 given.2) measures_binary hrun
  | undefined => exact hscalar (g := fun _ => .undefined) (measures_nothing rfl) hrun
  | objectId => exact hscalar (measures_fixed rfl ahead_of_objectId) hrun
  | boolean => exact hscalar measures_boolean hrun
  | dateTime => exact hscalar (measures_int64 rfl) hrun
  | null => exact hscalar (g := fun _ => .null) (measures_nothing rfl) hrun
  | regularExpression =>
      exact hscalar (g := fun given => .regularExpression given.1 given.2) measures_regularExpression hrun
  | dbPointer => exact hscalar (g := fun given => .dbPointer given.1 given.2) measures_dbPointer hrun
  | javaScript => exact hscalar (measures_string rfl) hrun
  | symbol => exact hscalar (measures_string rfl) hrun
  | scopedCode => exact h.readScopedCode hwindow hrun
  | int32 => exact hscalar measures_int32 hrun
  | timestamp =>
      exact hscalar (g := fun (given : UInt32 × UInt32) => .timestamp given.1 given.2)
        (Measures.map (measures_natural rfl) _) hrun
  | int64 => exact hscalar (measures_int64 rfl) hrun
  | decimal128 => exact hscalar measures_decimal128 hrun
  | minKey => exact hscalar (g := fun _ => .minKey) (measures_nothing rfl) hrun
  | maxKey => exact hscalar (g := fun _ => .maxKey) (measures_nothing rfl) hrun
  | endOfDocument => cases hrun

theorem succeeds (fuel : Nat) : Succeeds fuel := by
  induction fuel with
  | zero =>
      have hnone {α : Type} {r s : Reader} {a : α} : (onInput Replay.outOfBytes).run.run r ≠ (.ok a, s) :=
        (fails_outOfBytes r).ne_ok
      exact ⟨fun _ _ h => absurd h hnone, fun _ _ h => absurd h hnone, fun _ _ _ _ h => absurd h hnone,
        fun _ _ _ h => absurd h hnone, fun _ h => absurd h hnone, fun _ _ _ h => absurd h hnone⟩
  | succ fuel ih =>
      exact ⟨ih.readValue, ih.readDocument, ih.readScope, ih.readFields, ih.readArray, ih.readItems⟩

theorem finished_of_readValue {v : Value} (h : r.input.Window feed) (hstate : r.state = .value)
    (hrun : (readValue type).run.run r = (.ok v, t)) : Finished feed type r t := by
  rw [readValue] at hrun
  exact (succeeds r.steps).value h hstate (of_run_get hrun)

/-- What can be read can be passed over, to the same place. -/
theorem exists_skipValue_run {v : Value} (h : r.input.Window feed) (hstate : r.state = .value)
    (htype : r.currentType = some type) (hrun : (readValue type).run.run r = (.ok v, t)) :
    ∃ count s, skipValue.run.run r = (.ok (), { s with state := afterContainer r.frames }) ∧
      r.Ahead feed count s ∧ t.position = r.position + count := by
  obtain ⟨hcompleted, count, hspans, hposition⟩ := finished_of_readValue h hstate hrun
  have hle : r.position + count ≤ feed.bytes.length := hposition ▸ hcompleted.window.position_le
  obtain ⟨s, hskip, hahead⟩ := hspans.exists_skipValue_run h hstate htype hle
  exact ⟨count, s, hskip, hahead, hposition⟩

/-- A name that can be read can be passed over. -/
theorem skipName_run_of_readName {name : String} (hrun : readName.run.run r = (.ok name, t)) :
    skipName.run.run r = (.ok (), { t with currentName := none }) := by
  obtain ⟨_, s, hopen, hrest⟩ := exists_of_run_bind hrun
  obtain rfl := eq_of_ensureOpen_run hopen
  obtain ⟨hname, hrest⟩ := of_run_check (fails_refuse _ s) (of_run_get hrest)
  rw [run_bind_ok (offset_run s)] at hrest
  obtain ⟨bytes, u, hread, hrest⟩ := exists_of_run_bind hrest
  rw [skipName, run_bind_ok hopen, run_bind_ok (run_get s), if_neg hname, discard_eq_bind, bind_assoc,
    run_bind_ok hread]
  split at hrest
  · cases hrest
  · cases hrest
    rfl

end Reader

end Aggregation.Wire
