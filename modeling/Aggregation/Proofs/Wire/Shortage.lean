import Aggregation.Proofs.Wire.Moves

/-! Bytes that are not there. What can be asked of a reader inside a document begins, wherever the reader is, with one
and the same demand for bytes. If it cannot be met, nothing moves the reader any more; if it can, the reader moves on
before anything else can go wrong. -/

namespace Aggregation.Wire

open Stepping

/-- What has to be there before anything is taken: a number of bytes, or text with a NUL after it. -/
inductive Need where
  | bytes (count : Nat)
  | text

/-- What is needed is not there at a position. -/
def Need.IsLacking (feed : Feed) (position : Nat) : Need → Prop
  | bytes count => feed.bytes.length < position + count
  | text => 0 ∉ feed.bytes.drop position

/-- What a value of a type begins with. -/
def ElementType.need : ElementType → Need
  | .double | .dateTime | .int64 | .timestamp => .bytes 8
  | .int32 | .string | .javaScript | .symbol | .dbPointer | .document | .array | .scopedCode | .binary => .bytes 4
  | .boolean => .bytes 1
  | .objectId => .bytes 12
  | .decimal128 => .bytes 16
  | .regularExpression => .text
  | .null | .undefined | .minKey | .maxKey | .endOfDocument => .bytes 0

/-- What comes next inside a document begins with what is needed. -/
def Reader.Face.need (f : Face) : Need :=
  match f.state with
  | .type => .bytes 1
  | .name => .text
  | .scopeDocument => .bytes 4
  | .value => (f.currentType.map ElementType.need).getD (.bytes 0)
  | _ => .bytes 0

namespace Replay

variable {α β : Type} {need : Need} {step : Replay α}

/-- A step on an input that takes nothing before what is needed is there, and that then takes it. -/
structure Demands (need : Need) (step : Replay α) : Prop where
  steady : step.Steady
  lacks : ∀ {feed : Feed} {p : Nat}, need.IsLacking feed p → Settles feed step p (.error feed.shortage) p
  takes : ∀ {feed : Feed} {p : Nat}, ¬need.IsLacking feed p → ∃ a next, p < next ∧ Settles feed step p (.ok a) next

theorem Demands.map (h : Demands need step) (g : α → β) : Demands need (do return g (← step)) where
  steady := h.steady.bind fun _ => steady_pure _
  lacks hlacking := (h.lacks hlacking).bind_error _
  takes hnot := by
    obtain ⟨a, next, hlt, hsettles⟩ := h.takes hnot
    exact ⟨g a, next, hlt, hsettles.bind_ok (settles_pure _ _)⟩

theorem demands_bytes {count : Nat} (hcount : 0 < count) : Demands (.bytes count) (bytes count) where
  steady := steady_bytes count
  lacks hlacking := settles_demand_of_lt _ hlacking
  takes hnot := ⟨_, _, Nat.lt_add_of_pos_right hcount, settles_bytes_of_le (Nat.le_of_not_lt hnot)⟩

theorem demands_natural {count : Nat} (hcount : 0 < count) : Demands (.bytes count) (natural count) :=
  (demands_bytes hcount).map _

theorem demands_int32 : Demands (.bytes 4) int32 := (demands_natural (by decide)).map _

theorem demands_int64 : Demands (.bytes 8) int64 := (demands_natural (by decide)).map _

theorem demands_byte : Demands (.bytes 1) byte where
  steady := steady_byte
  lacks hlacking := settles_demand_of_lt _ hlacking
  takes hnot := ⟨_, _, Nat.lt_succ_self _, settles_byte_of_lt (Nat.le_of_not_lt hnot)⟩

theorem demands_skip {count : Nat} (hcount : 0 < count) : Demands (.bytes count) (skip count) where
  steady := steady_skip count
  lacks hlacking := settles_demand_of_lt _ hlacking
  takes hnot := ⟨_, _, Nat.lt_add_of_pos_right hcount, settles_skip_of_le (Nat.le_of_not_lt hnot)⟩

theorem demands_cstring : Demands .text cstring where
  steady := steady_cstring
  lacks hlacking := settles_cstring_of_not_mem hlacking
  takes hnot := by
    obtain ⟨name, rest, hbytes, hname⟩ := List.eq_append_cons_of_mem (not_not.1 hnot)
    refine ⟨_, _, ?_, settles_cstring_of_nul hbytes hname⟩
    rw [List.length_append, List.length_singleton]
    omega

end Replay

namespace Read

open Reader

variable {α β : Type} {x : Read α} {need : Need} {o : Opening} {pins : List Pin × Nat} {r : Reader}

/-- From an open reader a step takes nothing before what is needed is there, and then it takes it. -/
structure Demands (o : Opening) (r : Reader) (need : Need) (x : Read α) : Prop where
  takes : ∀ a t, x.run.run r = (.ok a, t) → Past o.feed (r.position + 1) t t
  lacks : need.IsLacking o.feed r.position → (∃ e, (x.run.run r).1 = .error e) ∧ (x.run.run r).2.face = r.face
  short : ∀ offset, (x.run.run r).1 = .error (.unexpectedEnd offset) → (x.run.run r).2.position = r.position →
    need.IsLacking o.feed r.position

/-- What follows a demand does not hide it. -/
theorem Demands.bind (hx : Demands o r need x) {f : α → Read β} (hf : ∀ a, Advances (f a)) :
    Demands o r need (x >>= f) := by
  have hmoved {a : α} {s : Reader} (hrun : x.run.run r = (.ok a, s)) :
      Past o.feed (r.position + 1) ((f a).run.run s).2 ((f a).run.run s).2 :=
    hf a _ _ s (hx.takes a s hrun)
  refine ⟨?_, ?_, ?_⟩
  · intro b t hrun
    obtain ⟨a, s, hfirst, hrest⟩ := exists_of_run_bind hrun
    have hpast := hmoved hfirst
    rwa [hrest] at hpast
  · intro hlacking
    obtain ⟨⟨e, he⟩, hface⟩ := hx.lacks hlacking
    rw [run_bind_error (Prod.ext he rfl)]
    exact ⟨⟨e, rfl⟩, hface⟩
  · intro offset herror hposition
    rcases hrun : x.run.run r with ⟨e | a, s⟩
    · rw [run_bind_error hrun] at herror hposition
      cases herror
      exact hx.short offset (by rw [hrun]) (by rw [hrun]; exact hposition)
    · rw [run_bind_ok hrun] at hposition
      have hle := (hmoved hrun).le_position
      rw [hposition] at hle
      exact absurd hle (Nat.not_succ_le_self _)

theorem demands_get_bind {f : Reader → Read β} (hf : Demands o r need (f r)) : Demands o r need (get >>= f) :=
  ⟨hf.takes, hf.lacks, hf.short⟩

theorem demands_ite {c : Prop} [Decidable c] {y : Read α} (hx : c → Demands o r need x)
    (hy : ¬c → Demands o r need y) : Demands o r need (if c then x else y) := by
  split
  · next hc => exact hx hc
  · next hc => exact hy hc

/-- A step that is refused for something else than want of bytes. -/
def Refused (r : Reader) (x : Read α) : Prop :=
  ∃ e, (∀ offset, e ≠ .unexpectedEnd offset) ∧ x.run.run r = (.error e, r)

theorem refused_throw {e : WireError} (he : ∀ offset, e ≠ .unexpectedEnd offset) : Refused r (throw e : Read α) :=
  ⟨e, he, rfl⟩

theorem refused_refuse (operation : String) : Refused r (refuse operation : Read α) :=
  ⟨.invalidState operation r.state.label, fun _ h => (by cases h), rfl⟩

theorem Refused.bind (h : Refused r x) (f : α → Read β) : Refused r (x >>= f) := by
  obtain ⟨e, he, hrun⟩ := h
  exact ⟨e, he, run_bind_error hrun⟩

theorem Refused.demands (h : Refused r x) : Demands o r need x := by
  obtain ⟨e, he, hrun⟩ := h
  refine ⟨fun a t hok => ?_, fun _ => ?_, fun offset herror => ?_⟩
  · cases hrun.symm.trans hok
  · rw [hrun]
    exact ⟨⟨e, rfl⟩, rfl⟩
  · rw [hrun] at herror
    exact absurd (Except.error.inj herror) (he offset)

/-- A check that refuses, and what follows it. -/
theorem demands_check {c : Prop} [Decidable c] {y : Read Unit} {k : Unit → Read α} (hy : Refused r y)
    (hk : ¬c → Demands o r need (k ())) : Demands o r need (if c then y >>= k else k ()) :=
  demands_ite (fun _ => (hy.bind k).demands) hk

/-- A step that finds something out about the reader or is refused. -/
def Guards (r : Reader) (x : Read Unit) (P : Prop) : Prop := (x.run.run r = (.ok (), r) ∧ P) ∨ Refused r x

theorem Guards.demands_bind {P : Prop} {y : Read Unit} (hy : Guards r y P) {k : Unit → Read α}
    (hk : P → Demands o r need (k ())) : Demands o r need (y >>= k) := by
  obtain ⟨hrun, hp⟩ | hrefused := hy
  · obtain ⟨htakes, hlacks, hshort⟩ := hk hp
    have hrest := run_bind_ok (f := k) hrun
    constructor
    · rwa [hrest]
    · rwa [hrest]
    · rwa [hrest]
  · exact (hrefused.bind k).demands

theorem guards_ensureOpen (h : r.Over o pins) : Guards r ensureOpen True := .inl ⟨ensureOpen_run_of_over h, trivial⟩

theorem guards_expectType (operation : String) (type : ElementType) :
    Guards r (expectType operation type) (r.currentType = some type) := by
  rw [Guards, Refused, expectType, run_bind_ok (run_get r)]
  cases r.currentType with
  | none => exact .inr (refused_refuse operation)
  | some actual =>
      dsimp only
      split
      · next hactual => exact .inl ⟨rfl, congrArg some hactual⟩
      · exact .inr (refused_throw fun _ h => by cases h)

theorem guards_beginValue (h : r.Over o pins) (operation : String) (type : ElementType) :
    Guards r (beginValue operation type) (r.state = .value ∧ r.currentType = some type) := by
  have hopen : (beginValue operation type).run.run r =
      (if r.state ≠ .value then refuse operation >>= fun _ => expectType operation type
        else expectType operation type : Read Unit).run.run r := run_bind_ok (ensureOpen_run_of_over h)
  rw [Guards, Refused, hopen]
  by_cases hstate : r.state = .value
  · rw [if_neg (not_not.2 hstate)]
    exact (guards_expectType operation type).imp_left fun htype => ⟨htype.1, hstate, htype.2⟩
  · rw [if_pos hstate]
    exact .inr ((refused_refuse operation).bind _)

/-! ## Payloads -/

theorem demands_onInput (h : r.Over o pins) {step : Replay α} (hstep : step.Demands need) :
    Demands o r need (onInput step) := by
  by_cases hlacking : need.IsLacking o.feed r.position
  · obtain ⟨b, hrun, hreaches⟩ := hstep.lacks hlacking r.input h.window rfl
    have hposition : b.position = r.position := hreaches.position_eq
    refine ⟨fun a t hok => ?_, fun _ => ?_, fun _ _ _ => hlacking⟩
    · rw [onInput_run, hrun] at hok
      cases hok
    · rw [onInput_run, hrun]
      refine ⟨⟨_, rfl⟩, ?_⟩
      simp only [face, position, hposition]
  · obtain ⟨a, next, hlt, hsettles⟩ := hstep.takes hlacking
    obtain ⟨b, hrun, hreaches⟩ := hsettles r.input h.window rfl
    refine ⟨fun a' t hok => ?_, fun hlacking' => absurd hlacking' hlacking, fun offset herror => ?_⟩
    · rw [onInput_run, hrun] at hok
      cases hok
      refine ⟨rfl, hreaches.window, h.state_ne, ?_⟩
      show r.position + 1 ≤ b.position
      rw [hreaches.position_eq]
      exact hlt
    · rw [onInput_run, hrun] at herror
      cases herror

theorem demands_length (h : r.Over o pins) (minimum : Int) : Demands o r (.bytes 4) (length minimum) := by
  refine demands_get_bind ((demands_onInput h Replay.demands_int32).bind fun length => Local.advances ?_)
  refine local_check (local_throw _) fun _ => ?_
  refine local_get_bind (fun h => by simp only [h.limits_eq]) fun r => ?_
  exact local_check (local_throw _) fun _ => local_pure _

theorem demands_openContainer (h : r.Over o pins) (kind : FrameKind) :
    Demands o r (.bytes 4) (openContainer kind) := by
  refine demands_get_bind (demands_check (refused_throw fun _ h => by cases h) fun _ => ?_)
  exact (demands_length h 0).bind fun declared => advances_modify (fun _ => rfl) fun _ => id

theorem demands_stringPayload (h : r.Over o pins) : Demands o r (.bytes 4) stringPayload := by
  refine demands_get_bind ((demands_length h 1).bind fun size => Local.advances ?_)
  refine (local_onInput (Replay.local_bytes _)).bind fun bytes => local_check (local_throw _) fun _ => ?_
  split
  · exact local_throw _
  · exact local_pure _

theorem demands_regexPart (h : r.Over o pins) : Demands o r .text regexPart := by
  refine demands_get_bind ((demands_onInput h Replay.demands_cstring).bind fun bytes => Local.advances ?_)
  split
  · exact local_throw _
  · exact local_pure _

/-- What fails for want of bytes does not go back. -/
theorem advances_outOfBytes : Advances (onInput (Replay.outOfBytes : Replay α)) := fun _ _ _ h => h

theorem demands_objectIdPayload (h : r.Over o pins) : Demands o r (.bytes 12) objectIdPayload := by
  refine (demands_onInput h (Replay.demands_bytes (by decide))).bind fun bytes => ?_
  split
  · exact (local_pure _).advances
  · exact advances_outOfBytes

theorem demands_decimal128Payload (h : r.Over o pins) : Demands o r (.bytes 16) decimal128Payload := by
  refine (demands_onInput h (Replay.demands_bytes (by decide))).bind fun bytes => ?_
  split
  · exact (local_pure _).advances
  · exact advances_outOfBytes

theorem demands_booleanPayload (h : r.Over o pins) : Demands o r (.bytes 1) booleanPayload := by
  refine demands_get_bind ((demands_onInput h Replay.demands_byte).bind fun b => Local.advances ?_)
  exact local_ite (local_pure _) (local_ite (local_pure _) (local_throw _))

theorem demands_binaryPayload (h : r.Over o pins) : Demands o r (.bytes 4) binaryPayload := by
  refine demands_get_bind ((demands_length h 0).bind fun outer => Local.advances ?_)
  refine (local_onInput Replay.local_byte).bind fun subtype => local_ite ?_ ?_
  · refine (local_onInput Replay.local_int32).bind fun inner => local_check (local_throw _) fun _ => ?_
    exact (local_onInput (Replay.local_bytes _)).bind fun _ => local_pure _
  · exact (local_onInput (Replay.local_bytes _)).bind fun _ => local_pure _

end Read

namespace Reader

open Read

variable {α : Type} {x : Read α} {o : Opening} {pins : List Pin × Nat} {r : Reader}

/-! ## Calls -/

/-- What a step does for want of bytes: it changes nothing if what comes next is not there, and if it fails for want of
bytes without having moved then that is so. -/
structure Asks (o : Opening) (r : Reader) (x : Read α) : Prop where
  rests : r.face.need.IsLacking o.feed r.position → (x.run.run r).2.face = r.face
  lacking : ∀ offset, (x.run.run r).1 = .error (.unexpectedEnd offset) → (x.run.run r).2.position = r.position →
    r.face.need.IsLacking o.feed r.position

theorem asks_of_demands (h : Demands o r r.face.need x) : Asks o r x := ⟨fun hlacking => (h.lacks hlacking).2, h.short⟩

theorem asks_of_ok {a : α} (h : x.run.run r = (.ok a, r)) : Asks o r x := by
  refine ⟨fun _ => by rw [h], fun offset herror => ?_⟩
  rw [h] at herror
  cases herror

theorem not_isLacking_zero (h : r.Over o pins) : ¬(Need.bytes 0).IsLacking o.feed r.position :=
  Nat.not_lt_of_le h.window.position_le

/-- Where nothing is needed, what is done does not fail for want of bytes. -/
theorem asks_of_zero (h : r.Over o pins) (hneed : r.face.need = .bytes 0)
    (hx : ∀ offset, (x.run.run r).1 ≠ .error (.unexpectedEnd offset)) : Asks o r x := by
  refine ⟨fun hlacking => ?_, fun offset herror => absurd herror (hx offset)⟩
  rw [hneed] at hlacking
  exact absurd hlacking (not_isLacking_zero h)

theorem need_of_state {need : Need} (hstate : (match r.state with
    | .type => Need.bytes 1
    | .name => .text
    | .scopeDocument => .bytes 4
    | .value => (r.currentType.map ElementType.need).getD (.bytes 0)
    | _ => .bytes 0) = need) : r.face.need = need := hstate

theorem need_of_value (hstate : r.state = .value) {type : ElementType} (htype : r.currentType = some type) :
    r.face.need = type.need := by
  refine need_of_state ?_
  rw [hstate, htype]
  rfl

theorem demands_readScalar (h : r.Over o pins) (operation : String) {type : ElementType} {payload : Read α}
    (hpayload : Demands o r type.need payload) : Demands o r r.face.need (readScalar operation type payload) := by
  refine (guards_beginValue h operation type).demands_bind fun hvalue => ?_
  rw [need_of_value hvalue.1 hvalue.2]
  exact hpayload.bind fun _ => (local_endValue.bind fun _ => local_pure _).advances

theorem asks_readNothing (h : r.Over o pins) (operation : String) {type : ElementType} (htype : type.need = .bytes 0)
    (a : α) : Asks o r (readScalar operation type (pure a)) := by
  obtain ⟨hrun, hvalue⟩ | hrefused := guards_beginValue h operation type
  · refine asks_of_zero h ((need_of_value hvalue.1 hvalue.2).trans htype) fun offset herror => ?_
    rw [readScalar, run_bind_ok hrun] at herror
    cases herror
  · exact asks_of_demands (hrefused.bind _).demands

theorem demands_readType (h : r.Over o pins) (hinside : r.state ≠ .initial ∧ r.state ≠ .done) :
    Demands o r r.face.need readType := by
  refine (guards_ensureOpen h).demands_bind fun _ => demands_get_bind ?_
  split
  · next hstate => exact absurd hstate hinside.1
  · next hstate => exact absurd hstate hinside.2
  · next hstate =>
      have hneed : r.face.need = .bytes 1 := need_of_state (by rw [hstate])
      rw [hneed]
      exact (demands_onInput h Replay.demands_byte).bind fun tag => (local_innerTag tag).advances
  · exact (refused_refuse _).demands

theorem demands_readName (h : r.Over o pins) : Demands o r r.face.need readName := by
  refine (guards_ensureOpen h).demands_bind fun _ => demands_get_bind ?_
  refine demands_check (refused_refuse _) fun hstate => demands_get_bind ?_
  have hneed : r.face.need = .text := need_of_state (by rw [not_not.1 hstate])
  rw [hneed]
  refine (demands_onInput h Replay.demands_cstring).bind fun bytes => ?_
  split
  · exact (local_throw _).advances
  · exact (advances_named _).bind_pure _

theorem demands_expectName (h : r.Over o pins) (expected : String) :
    Demands o r r.face.need (expectName expected) := by
  refine (demands_readName h).bind fun actual => ?_
  split
  · exact advances_get_bind fun _ => (local_throw _).advances
  · exact (local_pure ()).advances

theorem demands_skipName (h : r.Over o pins) : Demands o r r.face.need skipName := by
  refine (guards_ensureOpen h).demands_bind fun _ => demands_get_bind ?_
  refine demands_check (refused_refuse _) fun hstate => ?_
  have hneed : r.face.need = .text := need_of_state (by rw [not_not.1 hstate])
  rw [hneed, discard_eq_bind]
  exact ((demands_onInput h Replay.demands_cstring).bind fun _ => (local_pure ()).advances).bind fun _ =>
    advances_named none

theorem demands_startContainer (h : r.Over o pins) (hneed : r.face.need = .bytes 4) (kind : FrameKind) :
    Demands o r r.face.need (openContainer kind >>= fun _ => modify fun r => { r with state := .type }) := by
  rw [hneed]
  exact (demands_openContainer h kind).bind fun _ => advances_modify (fun _ => rfl) fun _ _ => nofun

theorem demands_startDocument (h : r.Over o pins) (hinside : r.state ≠ .initial ∧ r.state ≠ .done) :
    Demands o r r.face.need startDocument := by
  refine (guards_ensureOpen h).demands_bind fun _ => demands_get_bind ?_
  split
  · next hstate => exact absurd hstate hinside.1
  · next hstate => exact absurd hstate hinside.2
  · next hstate => exact demands_startContainer h (need_of_state (by rw [hstate])) .scopeDocument
  · next hstate =>
      refine (guards_expectType _ _).demands_bind fun htype => ?_
      exact demands_startContainer h (need_of_value hstate htype) .document
  · exact ((refused_refuse _).bind _).demands

theorem demands_startArray (h : r.Over o pins) : Demands o r r.face.need startArray :=
  (guards_beginValue h _ _).demands_bind fun hvalue => demands_startContainer h (need_of_value hvalue.1 hvalue.2) .array

theorem demands_readScopedCode (h : r.Over o pins) : Demands o r r.face.need readScopedCode := by
  refine (guards_beginValue h _ _).demands_bind fun hvalue => ?_
  rw [need_of_value hvalue.1 hvalue.2]
  refine (demands_openContainer h .scopedCode).bind fun _ => local_stringPayload.advances.bind fun code => ?_
  exact .bind (advances_modify (fun _ => rfl) fun _ _ => nofun) fun _ => (local_pure code).advances

/-- What is passed over begins with what is needed. -/
theorem demands_skip (h : r.Over o pins) {type : ElementType} (hne : type.need ≠ .bytes 0) :
    Demands o r type.need (do
      let size ← skippedSize type
      onInput (Replay.skip size)
      endValue) := by
  have hrest (size : Nat) : Advances (onInput (Replay.skip size) >>= fun _ => endValue) :=
    ((local_onInput (Replay.local_skip size)).bind fun _ => local_endValue).advances
  have hfixed {count : Nat} (hcount : 0 < count) :
      Demands o r (.bytes count) (onInput (Replay.skip count) >>= fun _ => endValue) :=
    (demands_onInput h (Replay.demands_skip hcount)).bind fun _ => local_endValue.advances
  have hlength (minimum : Int) (size : Int32 → Nat) :
      Demands o r (.bytes 4) ((do return size (← length minimum)) >>= fun size => do
        onInput (Replay.skip size)
        endValue) :=
    ((demands_length h minimum).bind fun _ => (local_pure _).advances).bind hrest
  cases type with
  | double | dateTime | int64 | timestamp | int32 | boolean | objectId | decimal128 => exact hfixed (by decide)
  | string | javaScript | symbol => exact hlength 1 fun n => n.toInt.toNat
  | dbPointer => exact hlength 1 fun n => n.toInt.toNat + 12
  | document | array | scopedCode => exact hlength 5 fun n => n.toInt.toNat - 4
  | binary => exact hlength 0 fun n => n.toInt.toNat + 1
  | regularExpression =>
      have hfirst : Demands o r .text (discard (onInput Replay.cstring)) := by
        rw [discard_eq_bind]
        exact (demands_onInput h Replay.demands_cstring).bind fun _ => (local_pure ()).advances
      refine (hfirst.bind fun _ => Local.advances ?_).bind hrest
      exact (local_onInput Replay.local_cstring).discard.bind fun _ => local_pure 0
  | null | undefined | minKey | maxKey | endOfDocument => exact absurd rfl hne

theorem skipValue_run (h : r.Over o pins) (hstate : r.state = .value) {type : ElementType}
    (htype : r.currentType = some type) : skipValue.run.run r = (do
      let size ← skippedSize type
      onInput (Replay.skip size)
      endValue : Read Unit).run.run r := by
  rw [skipValue, run_bind_ok (ensureOpen_run_of_over h), run_bind_ok (run_get r), if_neg (not_not.2 hstate),
    run_bind_ok (run_get r), htype]

theorem asks_skipValue (h : r.Over o pins) : Asks o r skipValue := by
  by_cases hzero : r.state = .value ∧ ∃ type, r.currentType = some type ∧ type.need = .bytes 0
  · obtain ⟨hstate, type, htype, hneed⟩ := hzero
    refine asks_of_zero h ((need_of_value hstate htype).trans hneed) fun offset herror => ?_
    rw [skipValue_run h hstate htype] at herror
    have hsize : skippedSize type = pure 0 ∨ skippedSize type = refuse "skip_value" := by
      cases type with
      | null | undefined | minKey | maxKey => exact .inl rfl
      | endOfDocument => exact .inr rfl
      | _ => cases hneed
    rcases hsize with hsize | hsize
    · have hsettles : Replay.Settles o.feed (Replay.skip 0) r.position (.ok ()) r.position :=
        Replay.settles_skip_of_le h.window.position_le
      obtain ⟨b, hskip, -⟩ := hsettles r.input h.window rfl
      have hrun : (onInput (Replay.skip 0)).run.run r = (.ok (), { r with input := b }) := by rw [onInput_run, hskip]
      rw [hsize, run_bind_ok (run_pure 0 r), run_bind_ok hrun] at herror
      cases herror
    · rw [hsize] at herror
      cases herror
  · refine asks_of_demands ((guards_ensureOpen h).demands_bind fun _ => demands_get_bind ?_)
    refine demands_check (refused_refuse _) fun hvalue => demands_get_bind ?_
    split
    · exact (refused_refuse _).demands
    · next type htype =>
        rw [need_of_value (not_not.1 hvalue) htype]
        exact demands_skip h fun hneed => hzero ⟨not_not.1 hvalue, type, htype, hneed⟩

theorem need_of_atEnd (hend : r.face.AtEnd) : r.face.need = .bytes 0 := by
  rcases hend with hstate | hstate <;> exact need_of_state (by rw [show r.state = _ from hstate])

/-- Leaving a container never asks for bytes. -/
theorem asks_of_leaves (h : r.Over o pins) (hend : r.face.AtEnd) {x : Read Unit} (hx : r.Leaves x) : Asks o r x := by
  refine asks_of_zero h (need_of_atEnd hend) fun offset herror => ?_
  cases (hx r rfl).2 (.unexpectedEnd offset) _ (Prod.ext herror rfl)

theorem asks_endDocument (h : r.Over o pins) : Asks o r endDocument := by
  by_cases hend : r.face.AtEnd
  · exact asks_of_leaves h hend (leaves_endDocument h.isClosed_eq)
  · refine asks_of_demands ((guards_ensureOpen h).demands_bind fun _ => demands_get_bind ?_)
    split
    · exact (refused_throw fun _ h => by cases h).demands
    · refine demands_check (refused_throw fun _ h => by cases h) fun _ => ?_
      exact demands_check (refused_throw fun _ h => by cases h) fun hstate => absurd (.inl (not_not.1 hstate)) hend

theorem asks_endArray (h : r.Over o pins) : Asks o r endArray := by
  by_cases hend : r.face.AtEnd
  · exact asks_of_leaves h hend (leaves_endArray h.isClosed_eq)
  · refine asks_of_demands ((guards_ensureOpen h).demands_bind fun _ => demands_get_bind ?_)
    refine demands_check (refused_throw fun _ h => by cases h) fun _ => ?_
    exact demands_check (refused_throw fun _ h => by cases h) fun hstate => absurd (.inr (not_not.1 hstate)) hend

theorem asks_isAtEnd (h : r.Over o pins) (hinside : r.state ≠ .initial ∧ r.state ≠ .done) : Asks o r isAtEnd := by
  have hrun : isAtEnd.run.run r = (.ok false, r) := by
    rw [isAtEnd, run_bind_ok (ensureOpen_run_of_over h), run_bind_ok (run_get r)]
    split
    · next hstate => exact absurd hstate hinside.1
    · next hstate => exact absurd hstate hinside.2
    · rfl
  exact asks_of_ok hrun

/-- What a call asks for inside a document. -/
theorem asks_read (h : r.Over o pins) (hinside : r.state ≠ .initial ∧ r.state ≠ .done) (call : Call) :
    Asks o r call.read := by
  have hscalar {β : Type} (operation : String) {type : ElementType} {payload : Read β}
      (hpayload : Demands o r type.need payload) : Asks o r (readScalar operation type payload) :=
    asks_of_demands (demands_readScalar h operation hpayload)
  cases call with
  | isAtEnd => exact asks_isAtEnd h hinside
  | readType => exact asks_of_demands (demands_readType h hinside)
  | readName => exact asks_of_demands (demands_readName h)
  | expectName expected => exact asks_of_demands (demands_expectName h expected)
  | skipName => exact asks_of_demands (demands_skipName h)
  | startDocument => exact asks_of_demands (demands_startDocument h hinside)
  | endDocument => exact asks_endDocument h
  | startArray => exact asks_of_demands (demands_startArray h)
  | endArray => exact asks_endArray h
  | skipValue => exact asks_skipValue h
  | readDouble =>
      exact hscalar _ ((demands_onInput h (Replay.demands_natural (by decide))).bind fun _ => (local_pure _).advances)
  | readString | readJavaScript | readSymbol => exact hscalar _ (demands_stringPayload h)
  | readBinary => exact hscalar _ (demands_binaryPayload h)
  | readUndefined | readNull | readMinKey | readMaxKey => exact asks_readNothing h _ rfl _
  | readObjectId => exact hscalar _ (demands_objectIdPayload h)
  | readBoolean => exact hscalar _ (demands_booleanPayload h)
  | readDateTime | readInt64 => exact hscalar _ (demands_onInput h Replay.demands_int64)
  | readRegularExpression =>
      exact hscalar _
        ((demands_regexPart h).bind fun _ => (local_regexPart.bind fun _ => local_pure _).advances)
  | readDbPointer =>
      exact hscalar _
        ((demands_stringPayload h).bind fun _ => (local_objectIdPayload.bind fun _ => local_pure _).advances)
  | readScopedCode => exact asks_of_demands (demands_readScopedCode h)
  | readInt32 => exact hscalar _ (demands_onInput h Replay.demands_int32)
  | readTimestamp =>
      exact hscalar _ ((demands_onInput h (Replay.demands_natural (by decide))).bind fun _ => (local_pure _).advances)
  | readDecimal128 => exact hscalar _ (demands_decimal128Payload h)

end Reader

end Aggregation.Wire
