import Aggregation.Proofs.Wire.Refusals

/-! What a call does to the containers that are open. Whether it succeeds or not, a call changes the state of a reader
and its containers in one of few ways, and after a failure these are not the ways back to where the reader was: a tag,
a name or a length that has been read stays read, and a container that has been left stays left. -/

namespace Aggregation.Wire

open Stepping

namespace Reader.Face

/-- The terminator of a container has been read. -/
def AtEnd (f : Face) : Prop := f.state = .endOfDocument ∨ f.state = .endOfArray

theorem not_atEnd_of {f : Face} (h : f.state ≠ .endOfDocument ∧ f.state ≠ .endOfArray) : ¬f.AtEnd :=
  fun hend => hend.elim h.1 h.2

/-- What has been read is a whole value, or a whole document at the top level. -/
def Follows (f : Face) : Prop := f.state = if f.frames = [] then .done else .type

/-- From one face to another by a call that tells something. -/
inductive Moves (feed : Feed) (f : Face) : Report → Face → Prop
  | stays {report : Report} {g : Face} (hstate : g.state = f.state) (hframes : g.frames = f.frames) :
      Moves feed f report g
  /-- A tag or a name is read. -/
  | passes {report : Report} {g : Face} (hfrom : ¬f.AtEnd) (hstate : g.state = .name ∨ g.state = .value)
      (hframes : g.frames = f.frames) : Moves feed f report g
  /-- A value is read or passed over. -/
  | follows {report : Report} {g : Face} (hfrom : f.state = .value) (hfollows : g.Follows)
      (hframes : g.frames = f.frames) : Moves feed f report g
  /-- The terminator is read. -/
  | terminates {g : Face} (hfrom : f.state = .type) (hbyte : feed.bytes[f.position]? = some 0) (hend : g.AtEnd)
      (hframes : g.frames = f.frames) : Moves feed f (.called .readType (.ok .endOfDocument)) g
  /-- The tag of an item of an array is read, whatever it is. -/
  | counts {report : Report} {g : Face} {frame : Frame} {frames : List Frame} (hfrom : f.state = .type)
      (hold : f.frames = frame :: frames) (harray : frame.kind = .array) (hstate : g.state = .type ∨ g.state = .name)
      (hframes : g.frames = { frame with index := frame.index + 1 } :: frames) : Moves feed f report g
  /-- A document or an array is entered. -/
  | enters {report : Report} {g : Face} {frame : Frame} (hfrom : ¬f.AtEnd) (hreport : report.error? = none)
      (hscope : frame.kind = .scopeDocument → f.state = .scopeDocument) (hstate : g.state = .type)
      (hframes : g.frames = frame :: f.frames) : Moves feed f report g
  /-- Code with a scope is entered; it stays so if the code cannot be read. -/
  | entersCode {report : Report} {g : Face} {frame : Frame} (hfrom : f.state = .value)
      (hkind : frame.kind = .scopedCode) (hstate : g.state = .value ∨ report.error? = none ∧ g.state = .scopeDocument)
      (hframes : g.frames = frame :: f.frames) : Moves feed f report g
  /-- Containers are left; they stay so if their length is wrong. -/
  | leaves {report : Report} {g : Face} {gone : List Frame} (hmay : f.MayClose) (hgone : Frame.LeftTogether gone)
      (hframes : f.frames = gone ++ g.frames)
      (hend : report.error? = none ∧ g.Follows ∨
        g.state = f.state ∧ ∃ path declared consumed,
          report.error? = some (.lengthMismatch path declared consumed)) : Moves feed f report g

end Reader.Face

namespace Reader

open Read

variable {o : Opening} {pins : List Pin × Nat} {r t : Reader} {frames : List Frame} {E : WireError → Reader → Prop}
  {report : Report} {feed : Feed}

theorem stays_self (r : Reader) : r.face.Moves feed report r.face := .stays rfl rfl

theorem stays_of_drawn (h : Drawn r t) : r.face.Moves feed report t.face :=
  .stays (standsIn_of_drawn h).state_eq (standsIn_of_drawn h).frames_eq

theorem not_atEnd_of_state (h : r.state ≠ .endOfDocument ∧ r.state ≠ .endOfArray) : ¬r.face.AtEnd :=
  Face.not_atEnd_of h

theorem StandsIn.follows (h : StandsIn frames (afterContainer frames) t) : t.face.Follows := by
  show t.state = if t.frames = [] then .done else .type
  rw [h.state_eq, h.frames_eq, afterContainer]
  simp only [List.isEmpty_iff]

/-- The byte that is read is the one at the position. -/
theorem ensures_byte (h : r.Over o pins) (hE : Bears E r) :
    Ensures (· = r) (onInput Replay.byte) (fun tag t => Drawn r t ∧ o.feed.bytes[r.position]? = some tag) E := by
  have hdraws := ensures_self h.window.isReleased_eq (ensures_draws (draws_onInput Replay.draws_byte) hE)
  rintro s rfl
  obtain ⟨hok, herror⟩ := hdraws s rfl
  refine ⟨fun tag t hrun => ⟨hok tag t hrun, ?_⟩, herror⟩
  rcases Nat.lt_or_ge s.position o.feed.bytes.length with hlt | hle
  · obtain ⟨b, hbyte, -⟩ := Replay.settles_byte_of_lt hlt s.input h.window rfl
    rw [onInput_run, hbyte] at hrun
    cases hrun
    exact List.getElem?_eq_getElem hlt
  · have hlt : o.feed.bytes.length < s.input.position + 1 := Nat.lt_succ_of_le hle
    obtain ⟨b, hbyte, -⟩ := Replay.settles_demand_of_lt _ hlt s.input h.window rfl
    have hfails : Replay.byte.run.run s.input = (.error o.feed.shortage, b) := hbyte
    rw [onInput_run, hfails] at hrun
    cases hrun

/-! ## The calls -/

/-- What a call leads to, successful or not. -/
def Leads (feed : Feed) (r : Reader) (call : Call) : Prop :=
  Ensures (· = r) call.read (fun a t => r.face.Moves feed (.called call (.ok a)) t.face)
    fun e t => r.face.Moves feed (.called call (.error e)) t.face

theorem bears_stays (feed : Feed) (r : Reader) (report : WireError → Report) :
    Bears (fun e t => r.face.Moves feed (report e) t.face) r := fun _ _ _ hframes hstate => .stays hstate hframes

theorem leads_isAtEnd (hopen : r.isClosed = false) : r.Leads feed .isAtEnd :=
  (ensures_isAtEnd hopen (bears_stays feed r _)).mono (fun _ h => h) fun _ _ => stays_of_drawn

/-- The tag of an element has been read, be it one that is known or not. -/
theorem moves_of_counted (hfrom : r.state = .type) (hframes : t.frames = counted r.frames)
    (hstate : t.state = .type ∨ t.state = .name) : r.face.Moves feed report t.face := by
  have hkept (hframes : t.frames = r.frames) : r.face.Moves feed report t.face := by
    rcases hstate with htype | hname
    · exact .stays (htype.trans hfrom.symm) hframes
    · exact .passes (not_atEnd_of_state (by rw [hfrom]; decide)) (.inl hname) hframes
  cases hold : r.frames with
  | nil =>
      rw [hold] at hframes
      exact hkept (hframes.trans hold.symm)
  | cons frame frames =>
      rw [hold, counted] at hframes
      by_cases harray : frame.kind = .array
      · rw [if_pos harray] at hframes
        exact .counts hfrom hold harray hstate hframes
      · rw [if_neg harray, ← hold] at hframes
        exact hkept hframes

theorem leads_readType (h : r.Over o pins) : r.Leads o.feed .readType := by
  have hbyte := ensures_byte h (bears_stays o.feed r fun e => .called .readType (.error e))
  refine (ensures_readType h.isClosed_eq hbyte (fun hstate e t _ hframes hkept => ?_)
    (fun _ _ _ _ => stays_of_drawn) (.inr fun _ => stays_self r)).mono (fun _ h => h) fun type t hlooked => ?_
  · exact moves_of_counted hstate hframes (.inl (hkept.trans hstate))
  · cases hlooked with
    | top hfrom h =>
        refine .passes (not_atEnd_of_state ?_) (.inr h.state_eq) h.frames_eq
        rcases hfrom with hfrom | hfrom <;> rw [hfrom] <;> decide
    | ends hfrom hzero h =>
        refine .terminates hfrom hzero ?_ h.frames_eq
        show t.state = .endOfDocument ∨ t.state = .endOfArray
        rw [h.state_eq, terminated]
        split
        · exact .inr rfl
        · exact .inl rfl
    | finds hfrom _ h => exact moves_of_counted hfrom h.frames_eq (.inr h.state_eq)

/-- A name has been read or passed over. -/
theorem NameRead.moves (h : NameRead r t) : r.face.Moves feed report t.face :=
  .passes (not_atEnd_of_state (by rw [h.from_eq]; decide)) (.inr h.state_eq) h.frames_eq

theorem leads_readName (hopen : r.isClosed = false) : r.Leads feed .readName :=
  (ensures_readName hopen (bears_stays feed r _) (.inr fun _ => stays_self r)).mono (fun _ h => h)
    fun _ _ => NameRead.moves

theorem leads_expectName (hopen : r.isClosed = false) (expected : String) : r.Leads feed (.expectName expected) :=
  (ensures_expectName hopen (bears_stays feed r _) (.inr fun _ => stays_self r) (fun _ _ _ => NameRead.moves)
    expected).mono (fun _ h => h) fun _ _ => NameRead.moves

theorem leads_skipName (hopen : r.isClosed = false) : r.Leads feed .skipName :=
  (ensures_skipName hopen (bears_stays feed r _) (.inr fun _ => stays_self r)).mono (fun _ h => h)
    fun _ _ => NameRead.moves

theorem leads_startDocument (hopen : r.isClosed = false) : r.Leads feed .startDocument := by
  refine (ensures_startDocument hopen (bears_stays feed r _) (.inr fun _ => stays_self r)).mono (fun _ h => h) ?_
  rintro _ t ⟨hnot, frame, hkind, h⟩
  refine .enters (not_atEnd_of_state hnot) rfl (fun hscope => ?_) h.state_eq h.frames_eq
  by_contra hstate
  have hentering : r.entering = .document := if_neg hstate
  rw [hkind, hentering] at hscope
  cases hscope

theorem leads_startArray (hopen : r.isClosed = false) : r.Leads feed .startArray := by
  refine (ensures_startArray hopen (bears_stays feed r _) (.inr fun _ => stays_self r)).mono (fun _ h => h) ?_
  rintro _ t ⟨hvalue, frame, hkind, h⟩
  refine .enters (not_atEnd_of_state (by rw [hvalue]; decide)) rfl (fun hscope => ?_) h.state_eq h.frames_eq
  rw [hkind] at hscope
  cases hscope

theorem leads_readScopedCode (hopen : r.isClosed = false) : r.Leads feed .readScopedCode := by
  refine (ensures_readScopedCode hopen (bears_stays feed r _) ?_ (.inr fun _ => stays_self r)).mono (fun _ h => h) ?_
  · rintro hvalue s ⟨frame, hkind, h⟩ e t - hframes hstate
    exact .entersCode hvalue hkind (.inl (hstate.trans h.state_eq)) (hframes.trans h.frames_eq)
  · rintro _ t ⟨hvalue, frame, hkind, h⟩
    exact .entersCode hvalue hkind (.inr ⟨rfl, h.state_eq⟩) h.frames_eq

theorem leads_skipValue (hopen : r.isClosed = false) : r.Leads feed .skipValue :=
  (ensures_skipValue hopen (bears_stays feed r _) fun _ => stays_self r).mono (fun _ h => h) fun _ _ h =>
    .follows h.1 h.2.follows h.2.frames_eq

/-- The rule of what leaves a container. -/
def Leaves (r : Reader) (x : Read Unit) : Prop :=
  Ensures (· = r) x (fun _ t => ∃ gone, Left r gone t ∧ t.face.Follows) (NotLeft r)

theorem leaves_of_whole {x : Read Unit} (h : Ensures (· = r) x (fun _ => LeftWhole r) (NotLeft r)) : r.Leaves x :=
  h.mono (fun _ h => h) fun _ _ ⟨_, hstands, gone, hleft⟩ => ⟨gone, hleft, hstands.follows⟩

theorem leaves_endDocument (hopen : r.isClosed = false) : r.Leaves endDocument :=
  leaves_of_whole (ensures_endDocument hopen)

theorem leaves_endArray (hopen : r.isClosed = false) : r.Leaves endArray := leaves_of_whole (ensures_endArray hopen)

/-- What leaves a container moves the reader, whatever the report on it is. -/
theorem Leaves.moves {x : Read Unit} (h : r.Leaves x) {report : Except WireError Unit → Report}
    (hok : (report (.ok ())).error? = none) (herror : ∀ e, (report (.error e)).error? = some e) :
    Ensures (· = r) x (fun a t => r.face.Moves feed (report (.ok a)) t.face)
      fun e t => r.face.Moves feed (report (.error e)) t.face := by
  refine (h.mono (fun _ h => h) ?_).mono_error ?_
  · rintro _ t ⟨gone, hleft, hfollows⟩
    exact .leaves hleft.mayClose hleft.leftTogether hleft.frames_eq (.inl ⟨hok, hfollows⟩)
  · rintro _ t (_ | ⟨hleft, hstate, path, declared, consumed⟩)
    · exact stays_self r
    · exact .leaves hleft.mayClose hleft.leftTogether hleft.frames_eq
        (.inr ⟨hstate, path, declared, consumed, herror _⟩)

/-- What is left was closed by the terminator that has been read. -/
theorem Leaves.mayClose {x : Read Unit} (h : r.Leaves x) (hrun : x.run.run r = (.ok (), t)) : r.face.MayClose := by
  obtain ⟨gone, hleft, -⟩ := (h r rfl).1 () t hrun
  exact hleft.mayClose

theorem leads_of_expects {call : Call} {type : ElementType} (htype : call.expects = some type)
    (hopen : r.isClosed = false) : r.Leads feed call := by
  obtain ⟨operation, payload, hread, hpayload⟩ := call.exists_scalar htype
  rw [Leads, hread]
  refine (ensures_readScalar hpayload hopen (bears_stays feed r _) (.inr fun _ => stays_self r)).mono (fun _ h => h) ?_
  exact fun _ _ h => .follows h.1 h.2.follows h.2.frames_eq

/-- Every call moves a reader in one of the ways there are. -/
theorem leads (h : r.Over o pins) (call : Call) : r.Leads o.feed call := by
  have hopen := h.isClosed_eq
  cases htype : call.expects with
  | some type => exact leads_of_expects htype hopen
  | none =>
      cases call with
      | isAtEnd => exact leads_isAtEnd hopen
      | readType => exact leads_readType h
      | readName => exact leads_readName hopen
      | expectName expected => exact leads_expectName hopen expected
      | skipName => exact leads_skipName hopen
      | startDocument => exact leads_startDocument hopen
      | endDocument => exact (leaves_endDocument hopen).moves rfl fun _ => rfl
      | startArray => exact leads_startArray hopen
      | endArray => exact (leaves_endArray hopen).moves rfl fun _ => rfl
      | skipValue => exact leads_skipValue hopen
      | readScopedCode => exact leads_readScopedCode hopen
      | _ => cases htype

end Reader

end Aggregation.Wire
