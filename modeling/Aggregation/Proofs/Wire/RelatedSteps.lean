import Aggregation.Proofs.Wire.RelatedReaders

/-! Every step of a reader, on two readers in a lasting bond. What a step looks at is what readers at one place have in
common: the state, the type while the element is under way, how many containers are open and of which kinds. Where it
comes to a name or to a path it does so for an error. -/

namespace Aggregation.Wire

open Stepping

namespace Reader

variable {l m : Look}

/-- Where no element is under way the types may differ. -/
theorem Look.Beside.outside (h : l.Beside m) {state : ReaderState}
    (hstate : state ≠ .closed ∧ state ≠ .name ∧ state ≠ .value) (type type' : Option ElementType)
    (name name' : Option String) : Beside ⟨state, type, name, l.frames⟩ ⟨state, type', name', m.frames⟩ :=
  ⟨hstate.1, rfl, fun hunder => absurd hunder (not_or.2 hstate.2), h.frames_eq⟩

theorem Look.Beside.inside (h : l.Beside m) {state : ReaderState} (hstate : state ≠ .closed)
    (type : Option ElementType) (name name' : Option String) :
    Beside ⟨state, type, name, l.frames⟩ ⟨state, type, name', m.frames⟩ := ⟨hstate, rfl, fun _ => rfl, h.frames_eq⟩

end Reader

namespace Read

open Reader

variable {α β : Type} {B : Bond} {r q : Reader}

/-- Other containers, which are the same but for their parts of paths. -/
theorem Bond.Lasting.frames (hB : B.Lasting) (h : B.rel r q) {frames frames' : List Frame}
    (hbare : frames.map Frame.bare = frames'.map Frame.bare) (heq : ¬B.lenient → frames = frames') :
    B.rel { r with frames } { q with frames := frames' } := by
  have hbeside := hB.beside h
  refine hB.wear h (l := { r.look with frames }) (m := { q.look with frames := frames' })
    ⟨hbeside.state_ne, hbeside.state_eq, hbeside.type_eq, hbare⟩ fun hexact => ?_
  rw [hB.look_eq h hexact, heq hexact]

/-- The name of an element is known, or has been passed over. -/
theorem Bond.Lasting.named (hB : B.Lasting) (h : B.rel r q) (hstate : q.state = .name) (name : Option String) :
    B.rel { r with currentName := name, state := .value } { q with currentName := name, state := .value } := by
  have hbeside := hB.beside h
  refine hB.wear h (l := { r.look with currentName := name, state := .value })
    (m := { q.look with currentName := name, state := .value }) ⟨nofun, rfl, fun _ => ?_, hbeside.frames_eq⟩
    fun hexact => ?_
  · exact hbeside.type_eq (.inl (hbeside.state_eq.trans hstate))
  · rw [hB.look_eq h hexact]

/-- The type of an element is looked at while the element is under way. -/
theorem follows_expectType (hB : B.Lasting) (h : B.rel r q) (hstate : q.state = .value) (operation : String)
    (expected : ElementType) :
    Follows B (expectType operation expected) (expectType operation expected) r q := by
  have hbeside := hB.beside h
  apply follows_get_bind
  rw [hbeside.type_eq (.inr (hbeside.state_eq.trans hstate))]
  split
  · exact local_ite (local_pure _) (local_throw _) hB h
  · exact local_refuse operation hB h

theorem local_beginValue (operation : String) (expected : ElementType) : Local (beginValue operation expected) := by
  refine fun B hB r q h => (local_ensureOpen hB h).bind fun _ r q _ h => follows_get_bind ?_
  rw [(hB.beside h).state_eq]
  refine follows_check (local_refuse _ hB h) (fails_refuse _ _) fun hstate => ?_
  exact follows_expectType hB h (not_not.1 hstate) operation expected

theorem local_endValue : Local endValue := by
  refine local_wear (fun l => { l with state := if l.frames.isEmpty then .done else .type }) fun h => ?_
  rw [h.isEmpty_frames_eq]
  exact h.outside (by split <;> decide) _ _ _ _

theorem local_length (minimum : Int) : Local (length minimum) := by
  refine local_offset.bind fun start => (local_onInput Replay.local_int32).bind fun length => ?_
  refine local_check (local_throw _) fun _ => ?_
  exact local_get_bind (fun h => by simp only [h.limits_eq]) fun r => local_check (local_throw _) fun _ => local_pure _

theorem local_openContainer (kind : FrameKind) : Local (openContainer kind) := by
  intro B hB r q h
  have hplace := hB.beside h
  apply follows_get_bind
  rw [hplace.limits_eq, hplace.length_frames_eq]
  refine follows_check (local_throw _ hB h) (fails_throw _ _) fun _ =>
    (local_length 0 hB h).bind fun declared s t _ hst => follows_modify (hB.frames hst ?_ fun hexact => ?_)
  · rw [List.map_cons, List.map_cons, (hB.beside hst).frames_eq, Frame.bare, Frame.bare, hplace.position_eq]
  · rw [(hB.alike hexact hst).frames_eq, segment_eq (hB.alike hexact h), hplace.position_eq]

theorem closeContainer_run (r : Reader) :
    closeContainer.run.run r = match r.frames with
      | [] => (.error (.invalidState "pop_container" r.state.label), r)
      | frame :: frames =>
        if ((r.position - frame.start : Nat) : Int) ≠ frame.declared.toInt then
          (.error (.lengthMismatch r.containerPath frame.declared.toInt (r.position - frame.start)), { r with frames })
        else (.ok frame, { r with frames }) := by
  rw [closeContainer, run_bind_ok (run_get r)]
  cases r.frames with
  | nil => rfl
  | cons frame frames =>
      dsimp only
      rw [run_bind_ok (run_set _ _)]
      split <;> rfl

/-- The container that is closed is the same but for its part of a path. -/
theorem follows_closeContainer_bind (hB : B.Lasting) (h : B.rel r q) {f g : Frame → Read β}
    (hf : ∀ frame frame' s t, frame.kind = frame'.kind → B.rel s t → Follows B (f frame) (g frame') s t) :
    Follows B (closeContainer >>= f) (closeContainer >>= g) r q := by
  have hbeside := hB.beside h
  have hr := closeContainer_run r
  have hq := closeContainer_run q
  cases hframes : r.frames with
  | nil =>
      rw [hframes] at hr
      rw [hbeside.frames_eq_nil hframes, ← hbeside.state_eq] at hq
      exact (local_throw _ hB h).congr (run_bind_error hr) (run_bind_error hq)
  | cons frame frames =>
      obtain ⟨frame', frames', hframes', hbare, hrest⟩ := hbeside.exists_frame hframes
      obtain ⟨hkind, hstart, hdeclared, -, -⟩ := Frame.mk.inj hbare
      have hpopped : B.rel { r with frames } { q with frames := frames' } := by
        refine hB.frames h hrest fun hexact => ?_
        have heq := (hB.alike hexact h).frames_eq
        rw [hframes, hframes'] at heq
        exact (List.cons.inj heq).2
      rw [hframes] at hr
      rw [hframes'] at hq
      dsimp only at hr hq
      rw [← hbeside.position_eq, ← hstart, ← hdeclared] at hq
      split at hr
      · next hwrong =>
          rw [if_pos hwrong] at hq
          refine (follows_throw hpopped fun hexact => ?_).congr (run_bind_error hr) (run_bind_error hq)
          rw [(hB.alike hexact h).containerPath_eq]
      · next hends =>
          rw [if_neg hends] at hq
          exact (hf frame frame' _ _ hkind hpopped).congr (run_bind_ok hr) (run_bind_ok hq)

theorem local_discardContainer : Local (discard closeContainer) := by
  rw [discard_eq_bind]
  exact fun _ hB _ _ h => follows_closeContainer_bind hB h fun _ _ _ _ _ h => follows_pure h ()

theorem local_finishContainer : Local finishContainer := by
  refine .bind (local_wear (fun l => { l with currentType := none, currentName := none }) fun h => ?_) fun _ => ?_
  · exact ⟨h.state_ne, h.state_eq, fun _ => rfl, h.frames_eq⟩
  · refine local_endValue.bind fun _ => ?_
    exact local_get_bind (fun h => by rw [h.isEmpty_frames_eq]) fun _ => local_ite local_compact (local_pure _)

theorem local_stringPayload : Local stringPayload := by
  refine local_offset.bind fun start => (local_length 1).bind fun size => ?_
  refine (local_onInput (Replay.local_bytes _)).bind fun bytes => local_check (local_throw _) fun _ => ?_
  split
  · exact local_throw _
  · exact local_pure _

theorem local_regexPart : Local regexPart := by
  refine local_offset.bind fun start => (local_onInput Replay.local_cstring).bind fun bytes => ?_
  split
  · exact local_throw _
  · exact local_pure _

/-- What follows a number of bytes has as many. -/
theorem local_bytes_bind {count : Nat} {f : List UInt8 → Read α}
    (hf : ∀ bytes, bytes.length = count → Local (f bytes)) : Local (onInput (Replay.bytes count) >>= f) := by
  intro B hB r q h
  obtain ⟨feed, hwindow⟩ := hB.right h
  refine (local_onInput (Replay.local_bytes count) hB h).bind fun bytes s t hrun h => ?_
  have hbytes : (Replay.bytes count).run.run q.input = (.ok bytes, t.input) := by
    obtain ⟨hresult, rfl⟩ := Prod.mk.inj hrun
    exact Prod.ext hresult rfl
  exact hf bytes (Replay.length_of_bytes_run hwindow hbytes) hB h

theorem local_objectIdPayload : Local objectIdPayload := by
  refine local_bytes_bind fun bytes hlength => ?_
  rw [ObjectId.ofBytes?, dif_pos hlength]
  exact local_pure _

theorem local_decimal128Payload : Local decimal128Payload := by
  refine local_bytes_bind fun bytes hlength => ?_
  rw [Decimal128.ofBytes?, dif_pos hlength]
  exact local_pure _

theorem local_booleanPayload : Local booleanPayload := by
  refine local_offset.bind fun start => (local_onInput Replay.local_byte).bind fun b => ?_
  exact local_ite (local_pure _) (local_ite (local_pure _) (local_throw _))

theorem local_binaryPayload : Local binaryPayload := by
  refine local_offset.bind fun start => (local_length 0).bind fun outer => ?_
  refine (local_onInput Replay.local_byte).bind fun subtype => local_ite ?_ ?_
  · refine (local_onInput Replay.local_int32).bind fun inner => local_check (local_throw _) fun _ => ?_
    exact (local_onInput (Replay.local_bytes _)).bind_pure _
  · exact (local_onInput (Replay.local_bytes _)).bind_pure _

/-- What an error says of the name is looked for on both readers alike, if errors have to be the same at all. -/
theorem follows_offendingName (hB : B.Lasting) (hexact : ¬B.lenient) (h : B.rel r q) :
    Follows B offendingName offendingName r q := by
  obtain ⟨hname, hread⟩ := (local_onInput Replay.local_cstring hB h).matches hexact fun _ hlacks =>
    hexact (hB.lenient_of_lacks hlacks)
  refine .same ?_
  rw [Matches, offendingName_run, offendingName_run, (hB.alike hexact h).frames_eq]
  split
  · exact ⟨rfl, h⟩
  · split
    · exact ⟨rfl, h⟩
    · exact ⟨rfl, h⟩
    · exact ⟨by rw [hname], hread⟩

theorem follows_record (hB : B.Lasting) (hexact : ¬B.lenient) (h : B.rel r q) (entry : Log.Entry) :
    Follows B (record entry) (record entry) r q := follows_modify (hB.record hexact h entry)

/-- The bytes of a name are read while the element is under way. -/
theorem follows_name_bind (hB : B.Lasting) (h : B.rel r q) (hstate : q.state = .name) {f : List UInt8 → Read β}
    (hf : ∀ bytes s t, t.state = .name → B.rel s t → Follows B (f bytes) (f bytes) s t) :
    Follows B (onInput Replay.cstring >>= f) (onInput Replay.cstring >>= f) r q := by
  refine (local_onInput Replay.local_cstring hB h).bind fun bytes s t hrun h => hf bytes s t ?_ h
  rw [onInput_run] at hrun
  obtain ⟨-, rfl⟩ := Prod.mk.inj hrun
  exact hstate

end Read

namespace Reader

open Read

variable {B : Bond} {r q : Reader}

theorem local_enterTop : Local (do
    modify fun r => { r with currentType := some .document, currentName := none, state := .value }
    return ElementType.document) :=
  .bind (local_wear (fun l => { l with currentType := some .document, currentName := none, state := .value })
    fun h => h.inside (by decide) _ _ _) fun _ => local_pure _

/-- The name of an element with an unknown tag is found somehow, and then the tag is refused. -/
theorem fails_elementTag {tag : UInt8} (htag : ElementType.ofTag? tag = none) (r : Reader) :
    Fails (elementTag tag) r := by
  rw [elementTag, htag]
  refine fails_bind_right (fun leaf r => fails_bind_right (fun _ r => ?_) r) r
  exact fails_bind_right (fun _ r => fails_throw _ r) r

theorem local_elementTag (tag : UInt8) : Local (elementTag tag) := by
  cases htag : ElementType.ofTag? tag with
  | some type =>
      rw [elementTag, htag]
      refine .bind (local_wear (fun l => { l with currentType := some type, currentName := none, state := .name })
        fun h => ?_) fun _ => local_pure _
      exact h.inside (by decide) _ _ _
  | none =>
      intro B hB r q h
      by_cases hlenient : B.lenient
      · exact .fails hlenient (fails_elementTag htag r)
      · rw [elementTag, htag]
        refine (follows_offendingName hB hlenient h).bind fun leaf r q _ h => follows_get_bind ?_
        rw [(hB.alike hlenient h).elementPath_eq]
        exact (follows_record hB hlenient h _).bind fun _ _ _ _ h => local_throw _ hB h

theorem local_innerTag (tag : UInt8) : Local (innerTag tag) := by
  intro B hB r q h
  have hbeside := hB.beside h
  apply follows_get_bind
  cases hframes : r.frames with
  | nil =>
      rw [hbeside.frames_eq_nil hframes]
      exact local_refuse _ hB h
  | cons frame frames =>
      obtain ⟨frame', frames', hframes', hbare, hrest⟩ := hbeside.exists_frame hframes
      obtain ⟨hkind, hstart, hdeclared, -, hindex⟩ := Frame.mk.inj hbare
      rw [hframes']
      dsimp only
      rw [← hkind]
      split
      · refine Local.bind (local_wear (fun l => { l with
            currentType := some .endOfDocument
            currentName := none
            state := if frame.kind = .array then .endOfArray else .endOfDocument }) fun h => ?_)
          (fun _ => local_pure _) hB h
        exact h.outside (by split <;> decide) _ _ _ _
      · split
        · refine (follows_modify (hB.frames h ?_ fun hexact => ?_)).bind fun _ _ _ _ h => local_elementTag tag hB h
          · rw [List.map_cons, List.map_cons, hrest, Frame.bare, Frame.bare, hstart, hdeclared, hindex]
          · have heq := (hB.alike hexact h).frames_eq
            rw [hframes, hframes'] at heq
            obtain ⟨rfl, rfl⟩ := List.cons.inj heq
            rfl
        · exact local_elementTag tag hB h

theorem local_readType : Local readType := by
  refine local_ensureOpen.bind fun _ => ?_
  refine local_get_bind (fun h => by simp only [h.state_eq]) fun r => ?_
  split
  · exact local_enterTop
  · exact local_enterTop
  · exact (local_onInput Replay.local_byte).bind local_innerTag
  · exact local_refuse _

theorem local_readName : Local readName := by
  refine fun B hB r q h => (local_ensureOpen hB h).bind fun _ r q _ h => follows_get_bind ?_
  rw [(hB.beside h).state_eq]
  refine follows_check (local_refuse _ hB h) (fails_refuse _ _) fun hstate => ?_
  refine (local_offset hB h).bind fun place s t hrun h => ?_
  cases hrun
  refine follows_name_bind hB h (not_not.1 hstate) fun bytes s t hstate h => ?_
  split
  · exact local_throw _ hB h
  · exact (follows_modify (hB.named h hstate _)).bind fun _ _ _ _ h => follows_pure h _

theorem local_expectName (expected : String) : Local (expectName expected) := by
  refine local_readName.bind fun actual => local_ite (fun B hB r q h => ?_) (local_pure ())
  exact follows_get_bind (follows_throw h fun hexact => by rw [(hB.alike hexact h).elementPath_eq])

theorem local_skipName : Local skipName := by
  refine fun B hB r q h => (local_ensureOpen hB h).bind fun _ r q _ h => follows_get_bind ?_
  rw [(hB.beside h).state_eq]
  refine follows_check (local_refuse _ hB h) (fails_refuse _ _) fun hstate => ?_
  rw [discard_eq_bind, bind_assoc]
  refine follows_name_bind hB h (not_not.1 hstate) fun bytes s t hstate h => ?_
  rw [pure_bind]
  exact follows_modify (hB.named h hstate _)

theorem local_startContainer (kind : FrameKind) : Local (do
    openContainer kind
    modify fun r => { r with state := .type }) :=
  (local_openContainer kind).bind fun _ =>
    local_wear (fun l => { l with state := .type }) fun h => h.outside (by decide) _ _ _ _

theorem local_startDocument : Local startDocument := by
  refine fun B hB r q h => (local_ensureOpen hB h).bind fun _ r q _ h => follows_get_bind ?_
  rw [(hB.beside h).state_eq]
  have hopen (kind : FrameKind) := (local_pure kind).bind local_startContainer
  split
  · exact hopen _ hB h
  · exact hopen _ hB h
  · exact hopen _ hB h
  · next hstate => exact (follows_expectType hB h hstate _ _).bind fun _ _ _ _ h => hopen _ hB h
  · exact (local_refuse _).bind local_startContainer hB h

theorem local_endDocument : Local endDocument := by
  refine fun B hB r q h => (local_ensureOpen hB h).bind fun _ r q _ h => follows_get_bind ?_
  have hbeside := hB.beside h
  cases hframes : r.frames with
  | nil =>
      rw [hbeside.frames_eq_nil hframes]
      exact local_throw _ hB h
  | cons frame frames =>
      obtain ⟨frame', frames', hframes', hbare, -⟩ := hbeside.exists_frame hframes
      have hkind : frame.kind = frame'.kind := (Frame.mk.inj hbare).1
      rw [hframes']
      dsimp only
      rw [hkind, hbeside.state_eq]
      refine follows_check (local_throw _ hB h) (fails_throw _ _) fun _ => ?_
      refine follows_check (local_throw _ hB h) (fails_throw _ _) fun _ => ?_
      refine follows_closeContainer_bind hB h fun closed closed' r q hclosed h => follows_get_bind ?_
      rw [hclosed, (hB.beside h).head_kind_eq]
      exact local_check local_discardContainer (fun _ => local_finishContainer) hB h

theorem local_startArray : Local startArray :=
  (local_beginValue _ _).bind fun _ => local_startContainer .array

theorem local_endArray : Local endArray := by
  refine local_ensureOpen.bind fun _ => ?_
  refine local_get_bind (fun h => by simp only [h.head_kind_eq, h.state_eq]) fun r => ?_
  refine local_check (local_throw _) fun _ => local_check (local_throw _) fun _ => ?_
  exact local_discardContainer.bind fun _ => local_finishContainer

theorem local_skippedSize (type : ElementType) : Local (skippedSize type) := by
  have hlength (minimum : Int) (size : Int32 → Nat) : Local (do return size (← length minimum)) :=
    (local_length minimum).bind_pure size
  have hcstring := (local_onInput Replay.local_cstring).discard
  cases type with
  | string | javaScript | symbol => exact hlength 1 fun n => n.toInt.toNat
  | dbPointer => exact hlength 1 fun n => n.toInt.toNat + 12
  | document | array | scopedCode => exact hlength 5 fun n => n.toInt.toNat - 4
  | binary => exact hlength 0 fun n => n.toInt.toNat + 1
  | regularExpression => exact hcstring.bind fun _ => hcstring.bind fun _ => local_pure _
  | endOfDocument => exact local_refuse _
  | _ => exact local_pure _

theorem local_skipValue : Local skipValue := by
  refine fun B hB r q h => (local_ensureOpen hB h).bind fun _ r q _ h => follows_get_bind ?_
  have hbeside := hB.beside h
  rw [hbeside.state_eq]
  refine follows_check (local_refuse _ hB h) (fails_refuse _ _) fun hstate => follows_get_bind ?_
  rw [hbeside.type_eq (.inr (hbeside.state_eq.trans (not_not.1 hstate)))]
  split
  · exact local_refuse _ hB h
  · refine ((local_skippedSize _).bind fun size => ?_) hB h
    exact (local_onInput (Replay.local_skip size)).bind fun _ => local_endValue

theorem local_readScalar {α : Type} (operation : String) (type : ElementType) {payload : Read α}
    (hpayload : Local payload) : Local (readScalar operation type payload) :=
  (local_beginValue operation type).bind fun _ => hpayload.bind fun a => local_endValue.bind_pure fun _ => a

theorem local_readScopedCode : Local readScopedCode := by
  refine (local_beginValue _ _).bind fun _ => (local_openContainer _).bind fun _ => ?_
  refine local_stringPayload.bind fun code => .bind (local_wear (fun l => { l with state := .scopeDocument })
    fun h => ?_) fun _ => local_pure _
  exact h.outside (by decide) _ _ _ _

/-- Only the look for the end looks ahead. -/
theorem steady_isAtEnd : Steady isAtEnd := by
  refine fun B hB hlacks r q h => (local_ensureOpen hB h).bind fun _ r q _ h => follows_get_bind ?_
  rw [(hB.beside h).state_eq]
  have hremaining : Follows B (do return !(← onInput Replay.hasRemaining)) (do return !(← onInput Replay.hasRemaining))
      r q := (hB.foresees hlacks Replay.steady_hasRemaining h).bind fun _ _ _ _ h => follows_pure h _
  split
  · exact hremaining
  · exact hremaining
  · exact follows_pure h false

theorem Over.steady {o : Opening} {pins : List Pin × Nat} {r : Reader} {α : Type} {x : Read α} (h : r.Over o pins)
    (hx : x.Steady) : (x.run.run r).2.Over o pins :=
  (hx.matches (blind_agree o pins pins) (r := r) (q := r) ⟨h, h, rfl⟩).2.left

end Reader

end Aggregation.Wire
