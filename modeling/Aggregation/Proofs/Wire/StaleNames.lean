import Aggregation.Proofs.Wire.Skipping
import Aggregation.Proofs.Wire.Transports

/-! What no step looks at. Between elements a reader still holds a type and a name, and they can be asked for; but no
step depends on them, and the next tag replaces them. So readers and bookmarks that differ in nothing else cannot be
told apart in any other way. -/

namespace Aggregation.Wire

open Stepping

/-- No element is under way: its tag has not been read, or its value has. -/
def Between : ReaderState → List Frame → Prop
  | .initial, frames | .done, frames => frames = []
  | .type, _ | .endOfDocument, _ | .endOfArray, _ | .closed, _ => True
  | .name, _ | .value, _ | .scopeDocument, _ => False

theorem between_afterContainer (frames : List Frame) : Between (Reader.afterContainer frames) frames := by
  cases frames with
  | nil => rfl
  | cons frame frames => trivial

/-- Inside a container, how many of them are open does not matter. -/
theorem Between.of_cons {state : ReaderState} {frame : Frame} {frames frames' : List Frame}
    (h : Between state (frame :: frames)) : Between state frames' := by
  cases state with
  | initial | done => cases h
  | name | value | scopeDocument => exact h.elim
  | _ => trivial

namespace Reader

/-- What can be seen of a reader beside the type and the name that it holds. -/
def Face.unnamed (f : Face) : Face := { f with currentType := none, currentName := none }

/-- Two readers that differ at most in the type and the name that they hold between elements. -/
inductive Veiled (r : Reader) : Reader → Prop
  | same : Veiled r r
  | between (h : Between r.state r.frames) (type : Option ElementType) (name : Option String) :
      Veiled r { r with currentType := type, currentName := name }

section

variable {r q : Reader}

theorem Veiled.face_eq (h : Veiled r q) : r.face.unnamed = q.face.unnamed := by
  cases h <;> rfl

theorem Veiled.frames_eq (h : Veiled r q) : r.frames = q.frames := by
  cases h <;> rfl

theorem Veiled.state_eq (h : Veiled r q) : r.state = q.state := by
  cases h <;> rfl

theorem Veiled.isClosed_eq (h : Veiled r q) : r.isClosed = q.isClosed := by
  cases h <;> rfl

theorem Veiled.limits_eq (h : Veiled r q) : r.limits = q.limits := by
  cases h <;> rfl

theorem Veiled.position_eq (h : Veiled r q) : r.position = q.position := by
  cases h <;> rfl

theorem Veiled.input_eq (h : Veiled r q) : r.input = q.input := by
  cases h <;> rfl

theorem Veiled.steps_eq (h : Veiled r q) : r.steps = q.steps := by
  cases h <;> rfl

theorem Veiled.elementPath_eq (h : Veiled r q) (leaf : String) : r.elementPath leaf = q.elementPath leaf := by
  cases h <;> rfl

/-- What happens to both alike, and leaves no element under way where none was. -/
theorem Veiled.map (h : Veiled r q) {f : Reader → Reader}
    (hf : ∀ type name, f { r with currentType := type, currentName := name } =
      { f r with currentType := type, currentName := name })
    (hbetween : Between r.state r.frames → Between (f r).state (f r).frames) : Veiled (f r) (f q) := by
  obtain _ | ⟨h, type, name⟩ := h
  · exact .same
  · rw [hf type name]
    exact .between (hbetween h) type name

end

end Reader

namespace Read

open Reader

variable {α β : Type} {x : Read α} {r q : Reader}

theorem matches_same (x : Read α) (r : Reader) : Matches Veiled x x r r := ⟨rfl, .same⟩

theorem veiled_modify {f : Reader → Reader}
    (hf : ∀ r type name, f { r with currentType := type, currentName := name } =
      { f r with currentType := type, currentName := name })
    (hbetween : ∀ r, Between r.state r.frames → Between (f r).state (f r).frames) :
    Lockstep Veiled (modify f : Read PUnit) :=
  lockstep_modify fun r _ h => h.map (hf r) (hbetween r)

theorem veiled_onInput (step : Replay α) : Lockstep Veiled (onInput step) := by
  intro r q h
  refine ⟨?_, h.map (f := fun r => ((onInput step).run.run r).2) (fun _ _ => rfl) id⟩
  show (step r.input).1 = (step q.input).1
  rw [h.input_eq]

theorem veiled_record (entry : Log.Entry) : Lockstep Veiled (record entry) :=
  veiled_modify (fun _ _ _ => rfl) fun _ => id

theorem veiled_ite {c : Prop} [Decidable c] {y : Read α} (hx : Lockstep Veiled x) (hy : Lockstep Veiled y) :
    Lockstep Veiled (if c then x else y) := by
  split
  · exact hx
  · exact hy

theorem veiled_check {c : Prop} [Decidable c] {x : Read Unit} {k : Unit → Read β} (hx : Lockstep Veiled x)
    (hk : ∀ a, Lockstep Veiled (k a)) : Lockstep Veiled (if c then x >>= k else k ()) :=
  veiled_ite (hx.bind hk) (hk ())

theorem veiled_ensureOpen : Lockstep Veiled ensureOpen := by
  refine lockstep_get_bind (fun r q h => ?_) fun r => veiled_ite (lockstep_throw _) (lockstep_pure _)
  rw [h.isClosed_eq]

theorem veiled_refuse (operation : String) : Lockstep Veiled (refuse operation : Read α) :=
  lockstep_get_bind (fun r q h => by rw [h.state_eq]) fun _ => lockstep_throw _

theorem veiled_length (minimum : Int) : Lockstep Veiled (length minimum) := by
  refine lockstep_get_bind (fun r q h => by rw [h.position_eq]) fun start => ?_
  refine (veiled_onInput _).bind fun length => veiled_check (lockstep_throw _) fun _ => ?_
  refine lockstep_get_bind (fun r q h => by simp only [h.limits_eq]) fun r => ?_
  exact veiled_check (lockstep_throw _) fun _ => lockstep_pure _

theorem veiled_offendingName : Lockstep Veiled offendingName := by
  intro r q h
  obtain ⟨hname, hveiled⟩ := veiled_onInput Replay.cstring r q h
  rw [Matches, offendingName_run, offendingName_run, h.frames_eq]
  split
  · exact ⟨rfl, h⟩
  · split
    · exact ⟨rfl, h⟩
    · exact ⟨rfl, h⟩
    · exact ⟨by rw [hname], hveiled⟩

theorem veiled_closeContainer : Lockstep Veiled closeContainer := by
  intro r q h
  apply matches_get_bind
  have hpath : r.containerPath = q.containerPath := by cases h <;> rfl
  rw [← h.frames_eq, ← h.position_eq, ← hpath]
  cases hframes : r.frames with
  | nil => exact veiled_refuse _ r q h
  | cons frame frames =>
      have hpop : Veiled { r with frames } { q with frames } := by
        refine h.map (f := fun r => { r with frames }) (fun _ _ => rfl) fun hbetween => ?_
        rw [hframes] at hbetween
        exact hbetween.of_cons
      refine Matches.bind ⟨rfl, hpop⟩ fun _ s t _ hst => ?_
      exact veiled_check (lockstep_throw _) (fun _ => lockstep_pure _) s t hst

/-! ## Steps that decide the type and the name themselves -/

/-- A step that leads from both readers to one and the same, if it succeeds. -/
def Unveils (x : Read α) (r q : Reader) : Prop :=
  x.run.run q = x.run.run r ∨ ∃ e s t, x.run.run r = (.error e, s) ∧ x.run.run q = (.error e, t) ∧ Veiled s t

theorem Unveils.matches (h : Unveils x r q) : Matches Veiled x x r q := by
  obtain heq | ⟨e, s, t, hr, hq, hst⟩ := h
  · rw [Matches, heq]
    exact ⟨rfl, .same⟩
  · rw [Matches, hr, hq]
    exact ⟨rfl, hst⟩

theorem unveils_throw (h : Veiled r q) (e : WireError) : Unveils (throw e : Read α) r q :=
  .inr ⟨e, r, q, rfl, rfl, h⟩

theorem unveils_refuse (h : Veiled r q) (operation : String) : Unveils (refuse operation : Read α) r q :=
  .inr ⟨.invalidState operation r.state.label, r, q, rfl, by rw [h.state_eq]; rfl, h⟩

theorem Unveils.bind (h : Unveils x r q) (f : α → Read β) : Unveils (x >>= f) r q := by
  obtain heq | ⟨e, s, t, hr, hq, hst⟩ := h
  · exact .inl (by rw [run_bind, run_bind, heq])
  · exact .inr ⟨e, s, t, run_bind_error hr, run_bind_error hq, hst⟩

theorem unveils_bind {f : α → Read β} (h : Matches Veiled x x r q)
    (hf : ∀ a s t, x.run.run r = (.ok a, s) → Veiled s t → Unveils (f a) s t) : Unveils (x >>= f) r q := by
  obtain ⟨hresult, hstate⟩ := h
  rcases hr : x.run.run r with ⟨result, s⟩
  rcases hq : x.run.run q with ⟨result', t⟩
  rw [hr, hq] at hresult hstate
  obtain rfl : result = result' := hresult
  cases result with
  | error e => exact .inr ⟨e, s, t, run_bind_error hr, run_bind_error hq, hstate⟩
  | ok a =>
      rw [Unveils, run_bind_ok hr, run_bind_ok hq]
      exact hf a s t hr hstate

theorem unveils_get {f : Reader → Read α} (heq : f q = f r) (hf : Unveils (f r) r q) : Unveils (get >>= f) r q := by
  rw [Unveils, run_bind_ok (run_get r), run_bind_ok (run_get q), heq]
  exact hf

theorem unveils_check {c : Prop} [Decidable c] {x : Read Unit} {k : Unit → Read α} (hx : Unveils x r q)
    (hk : Unveils (k ()) r q) : Unveils (if c then x >>= k else k ()) r q := by
  split
  · exact hx.bind k
  · exact hk

/-- Where both readers hold the same type and name, they are the same. -/
theorem unveils_modify {f : Reader → Reader} (h : Veiled r q)
    (hf : ∀ type name, f { r with currentType := type, currentName := name } = f r) :
    Unveils (modify f : Read PUnit) r q := by
  refine .inl ?_
  rw [run_modify, run_modify]
  obtain _ | ⟨-, type, name⟩ := h
  · rfl
  · rw [hf]

/-- A step that waits for the name or the value of an element is refused between elements. -/
theorem unveils_awaits {awaited : ReaderState} (hawaited : awaited = .name ∨ awaited = .value) (operation : String)
    {k : Unit → Read α} (h : Veiled r q) :
    Unveils (do
      ensureOpen
      let r ← get
      if r.state ≠ awaited then refuse operation >>= k else k ()) r q := by
  refine unveils_bind (veiled_ensureOpen r q h) fun _ s t _ hst => ?_
  obtain _ | ⟨hbetween, type, name⟩ := hst
  · exact .inl rfl
  · have hne : s.state ≠ awaited := by
      rintro rfl
      rcases hawaited with hstate | hstate
      · rw [hstate] at hbetween
        exact hbetween
      · rw [hstate] at hbetween
        exact hbetween
    refine unveils_get rfl ?_
    rw [if_pos hne]
    exact (unveils_refuse (.between hbetween type name) operation).bind k

theorem unveils_beginValue (operation : String) (expected : ElementType) (h : Veiled r q) :
    Unveils (beginValue operation expected) r q :=
  unveils_awaits (.inr rfl) operation h

theorem unveils_readScalar (operation : String) (type : ElementType) (payload : Read α) (h : Veiled r q) :
    Unveils (readScalar operation type payload) r q :=
  (unveils_beginValue operation type h).bind _

theorem unveils_elementTag (tag : UInt8) (h : Veiled r q) : Unveils (elementTag tag) r q := by
  rw [elementTag]
  split
  · exact (unveils_modify h fun _ _ => rfl).bind _
  · refine unveils_bind (veiled_offendingName r q h) fun leaf s t _ hst => ?_
    refine unveils_get (by rw [hst.elementPath_eq]) ?_
    exact unveils_bind (veiled_record _ s t hst) fun _ s t _ hst => unveils_throw hst _

theorem unveils_innerTag (tag : UInt8) (h : Veiled r q) : Unveils (innerTag tag) r q := by
  refine unveils_get (by rw [h.frames_eq]) ?_
  cases hframes : r.frames with
  | nil => exact unveils_refuse h _
  | cons frame frames =>
      dsimp only
      split
      · exact (unveils_modify h fun _ _ => rfl).bind _
      · split
        · refine unveils_bind ⟨rfl, ?_⟩ fun _ s t _ hst => unveils_elementTag tag hst
          refine h.map (f := fun r => { r with frames := { frame with index := frame.index + 1 } :: frames })
            (fun _ _ => rfl) fun hbetween => ?_
          rw [hframes] at hbetween
          exact hbetween.of_cons
        · exact unveils_elementTag tag h

theorem unveils_finishContainer (h : Veiled r q) : Unveils finishContainer r q :=
  (unveils_modify h fun _ _ => rfl).bind _

/-- A container is entered from both readers alike if its part of a path is the same. -/
theorem veiled_startContainer (kind : FrameKind) (h : Veiled r q) (hsegment : Read.segment r = Read.segment q) :
    Matches Veiled (do
      openContainer kind
      modify fun r => { r with state := .type }) (do
      openContainer kind
      modify fun r => { r with state := .type }) r q := by
  have hrun (s : Reader) : (do
      openContainer kind
      modify fun r => { r with state := .type } : Read PUnit).run.run s =
        if s.limits.maxNestingDepth < s.frames.length + 1 then
          (.error (.nestingTooDeep (s.frames.length + 1) s.limits.maxNestingDepth), s)
        else (length 0 >>= fun declared => modify fun t =>
          { t with state := .type, frames := ⟨kind, s.position, declared, Read.segment s, -1⟩ :: t.frames } :
            Read PUnit).run.run s := by
    rw [openContainer, run_bind, run_bind_ok (run_get s)]
    dsimp only
    by_cases hdeep : s.limits.maxNestingDepth < s.frames.length + 1
    · rw [if_pos hdeep, if_pos hdeep]
      rfl
    · rw [if_neg hdeep, if_neg hdeep, run_bind, run_bind]
      rcases (length 0).run.run s with ⟨e | declared, t⟩
      · rfl
      · rfl
  rw [Matches, hrun, hrun, h.limits_eq, h.frames_eq, h.position_eq, hsegment]
  split
  · exact ⟨rfl, h⟩
  · refine (veiled_length 0 r q h).bind fun declared s t _ hst => ⟨rfl, ?_⟩
    exact hst.map (f := fun t => { t with
      state := .type, frames := ⟨kind, q.position, declared, Read.segment q, -1⟩ :: t.frames }) (fun _ _ => rfl)
      fun _ => trivial

end Read

namespace Reader

open Read

variable {r q : Reader}

theorem veiled_isAtEnd : Lockstep Veiled isAtEnd := by
  refine veiled_ensureOpen.bind fun _ => ?_
  refine lockstep_get_bind (fun r q h => by simp only [h.state_eq]) fun r => ?_
  split
  · exact (veiled_onInput _).bind fun _ => lockstep_pure _
  · exact (veiled_onInput _).bind fun _ => lockstep_pure _
  · exact lockstep_pure _

theorem unveils_readType (h : Veiled r q) : Unveils readType r q := by
  refine unveils_bind (veiled_ensureOpen r q h) fun _ s t _ hst => ?_
  refine unveils_get (by simp only [hst.state_eq]) ?_
  split
  · exact (unveils_modify hst fun _ _ => rfl).bind _
  · exact (unveils_modify hst fun _ _ => rfl).bind _
  · exact unveils_bind (veiled_onInput _ s t hst) fun tag s t _ hst => unveils_innerTag tag hst
  · exact unveils_refuse hst _

theorem unveils_readName (h : Veiled r q) : Unveils readName r q := unveils_awaits (.inl rfl) _ h

theorem unveils_skipName (h : Veiled r q) : Unveils skipName r q := unveils_awaits (.inl rfl) _ h

theorem unveils_skipValue (h : Veiled r q) : Unveils skipValue r q := unveils_awaits (.inr rfl) _ h

theorem unveils_startArray (h : Veiled r q) : Unveils startArray r q := (unveils_beginValue _ _ h).bind _

theorem unveils_readScopedCode (h : Veiled r q) : Unveils readScopedCode r q := (unveils_beginValue _ _ h).bind _

theorem veiled_startDocument : Lockstep Veiled startDocument := by
  refine veiled_ensureOpen.bind fun _ r q h => ?_
  obtain _ | ⟨hbetween, type, name⟩ := h
  · exact matches_same _ r
  · have hveiled : Veiled r { r with currentType := type, currentName := name } := .between hbetween type name
    -- at the top level there is no path, so the name that is held does not matter
    have htop (hframes : r.frames = []) :
        Read.segment r = Read.segment { r with currentType := type, currentName := name } := by
      rw [Read.segment, Read.segment, hframes]
    rw [Matches, run_bind_ok (run_get r), run_bind_ok (run_get _)]
    dsimp only
    split
    · next hstate =>
        rw [hstate] at hbetween
        exact veiled_startContainer .document hveiled (htop hbetween)
    · next hstate =>
        rw [hstate] at hbetween
        exact veiled_startContainer .document hveiled (htop hbetween)
    · next hstate =>
        rw [hstate] at hbetween
        exact hbetween.elim
    · next hstate =>
        rw [hstate] at hbetween
        exact hbetween.elim
    · exact ((unveils_refuse hveiled _).bind _).matches

theorem veiled_discardContainer : Lockstep Veiled (discard closeContainer) := by
  rw [discard_eq_bind]
  exact veiled_closeContainer.bind fun _ => lockstep_pure _

theorem unveils_endDocument (h : Veiled r q) : Unveils endDocument r q := by
  refine unveils_bind (veiled_ensureOpen r q h) fun _ s t _ hst => ?_
  refine unveils_get (by simp only [hst.frames_eq, hst.state_eq]) ?_
  split
  · exact unveils_throw hst _
  · refine unveils_check (unveils_throw hst _) (unveils_check (unveils_throw hst _) ?_)
    refine unveils_bind (veiled_closeContainer s t hst) fun closed s t _ hst => ?_
    refine unveils_get (by simp only [hst.frames_eq]) ?_
    split
    · exact unveils_bind (veiled_discardContainer s t hst) fun _ s t _ hst => unveils_finishContainer hst
    · exact unveils_finishContainer hst

theorem unveils_endArray (h : Veiled r q) : Unveils endArray r q := by
  refine unveils_bind (veiled_ensureOpen r q h) fun _ s t _ hst => ?_
  refine unveils_get (by simp only [hst.frames_eq, hst.state_eq]) ?_
  refine unveils_check (unveils_throw hst _) (unveils_check (unveils_throw hst _) ?_)
  exact unveils_bind (veiled_discardContainer s t hst) fun _ s t _ hst => unveils_finishContainer hst

theorem unveils_readFieldsWithin (fuel : Nat) (d : Document) (h : Veiled r q) :
    Unveils (readFieldsWithin (fuel + 1) d) r q := by
  unfold readFieldsWithin
  refine unveils_bind ⟨congrArg Except.ok h.position_eq, h⟩ fun start s t _ hst => ?_
  exact (unveils_readType hst).bind _

theorem veiled_readDocumentWithin (fuel : Nat) : Lockstep Veiled (readDocumentWithin (fuel + 2)) := by
  intro r q h
  rw [readDocumentWithin]
  refine (veiled_startDocument r q h).bind fun _ s t _ hst => ?_
  exact ((unveils_readFieldsWithin fuel .empty hst).bind _).matches

theorem veiled_readDocument : Lockstep Veiled readDocument := by
  intro r q h
  rw [Matches, readDocument, run_bind_ok (run_get r), run_bind_ok (run_get q), ← h.steps_eq]
  exact veiled_readDocumentWithin (r.supply + 2) r q h

theorem veiled_readValue (type : ElementType) : Lockstep Veiled (readValue type) := by
  intro r q h
  rw [Matches, readValue, run_bind_ok (run_get r), run_bind_ok (run_get q), ← h.steps_eq]
  change Matches Veiled (readValueWithin (r.supply + 4) type) (readValueWithin (r.supply + 4) type) r q
  have hscalar {α : Type} (operation : String) (type : ElementType) (payload : Read α) (f : α → Read Value) :
      Matches Veiled (readScalar operation type payload >>= f) (readScalar operation type payload >>= f) r q :=
    ((unveils_readScalar operation type payload h).bind f).matches
  unfold readValueWithin
  cases type with
  | document => exact (veiled_readDocumentWithin (r.supply + 1) r q h).bind fun _ _ _ _ hst => ⟨rfl, hst⟩
  | array =>
      rw [readArrayWithin]
      exact (((unveils_startArray h).bind _).bind _).matches
  | scopedCode => exact ((unveils_readScopedCode h).bind _).matches
  | endOfDocument => exact ⟨rfl, h⟩
  | _ => exact hscalar _ _ _ _

end Reader

open Reader in
theorem Call.veiled_read (call : Call) : Lockstep Veiled call.read := by
  intro r q h
  have hscalar {α : Type} (operation : String) (type : ElementType) (payload : Read α) :
      Matches Veiled (readScalar operation type payload) (readScalar operation type payload) r q :=
    (Read.unveils_readScalar operation type payload h).matches
  cases call with
  | isAtEnd => exact veiled_isAtEnd r q h
  | readType => exact (unveils_readType h).matches
  | readName => exact (unveils_readName h).matches
  | expectName expected => exact ((unveils_readName h).bind _).matches
  | skipName => exact (unveils_skipName h).matches
  | startDocument => exact veiled_startDocument r q h
  | endDocument => exact (unveils_endDocument h).matches
  | startArray => exact (unveils_startArray h).matches
  | endArray => exact (unveils_endArray h).matches
  | skipValue => exact (unveils_skipValue h).matches
  | readScopedCode => exact (unveils_readScopedCode h).matches
  | _ => exact hscalar _ _ _

/-! ## Bookmarks and clients -/

/-- Two bookmarks of one place that differ at most in the type and the name that were held between elements. -/
inductive Bookmark.Veiled (b : Bookmark) : Bookmark → Prop
  | same : Veiled b b
  | between (h : Between b.state b.frames) (type : Option ElementType) (name : Option String) :
      Veiled b { b with currentType := type, currentName := name }

namespace Reader

variable {r q : Reader} {b b' : Bookmark}

theorem Veiled.mark (h : Veiled r q) : Bookmark.Veiled r.mark q.mark := by
  obtain _ | ⟨h, type, name⟩ := h
  · exact .same
  · exact .between (b := r.mark) h type name

theorem Veiled.marked (h : Veiled r q) : Veiled r.marked q.marked := h.map (fun _ _ => rfl) id

theorem Veiled.close (h : Veiled r q) : Veiled r.close q.close := h.map (fun _ _ => rfl) fun _ => trivial

theorem Veiled.release (h : Veiled r q) : Veiled r.release.2 q.release.2 :=
  h.map (f := fun r => r.release.2) (fun _ _ => rfl) fun _ => trivial

theorem Veiled.dropBookmark (h : Veiled r q) (hb : Bookmark.Veiled b b') :
    Veiled (r.dropBookmark b) (q.dropBookmark b') := by
  have hdrop : q.dropBookmark b' = q.dropBookmark b := by cases hb <;> rfl
  rw [hdrop]
  refine h.map (f := fun r => r.dropBookmark b) (fun type name => ?_) fun hbetween => ?_
  · rw [Reader.dropBookmark, Reader.dropBookmark]
    split <;> rfl
  · rw [Reader.dropBookmark]
    split
    · exact hbetween
    · exact hbetween

theorem bookmark_run_eq (r : Reader) :
    bookmark.run.run r = if r.isClosed then (.error .closed, r) else (.ok r.mark, r.marked) := by
  split
  · next hclosed => exact barred_bookmark r hclosed
  · next hopen =>
      rw [bookmark, Read.ensureOpen, run_bind, run_bind_ok (run_get r), if_neg hopen]
      rfl

theorem veiled_returnTo (h : Veiled r q) (hb : b.Veiled b') : Matches Veiled (returnTo b) (returnTo b') r q := by
  refine (Read.veiled_ensureOpen r q h).bind fun _ s t _ hst => ?_
  have hserial : t.serial = s.serial := by cases hst <;> rfl
  have hreader : b'.reader = b.reader := by cases hb <;> rfl
  have hpin : b'.pin = b.pin := by cases hb <;> rfl
  apply matches_get_bind
  dsimp only
  rw [hserial, ← hst.input_eq, hreader, hpin]
  have hstale {α : Type} (cause : Staleness) : Lockstep Veiled (do
      Read.record (Log.Event.staleBookmark.entry
        [("position", toString b.pin.position), ("reason", cause.reason)])
      throw (.staleBookmark b.pin.position cause) : Read α) :=
    (Read.veiled_record _).bind fun _ => lockstep_throw _
  split
  · exact (hstale _ s t hst).bind fun _ _ _ hrun _ => by cases hrun
  · split
    · exact hstale _ s t hst
    · refine ⟨rfl, ?_⟩
      rcases hb with _ | ⟨hbetween, type, name⟩
      · cases hst <;> exact .same
      · cases hst <;> exact .between hbetween type name

end Reader

/-- What is seen of an action if less is seen of the reader. -/
def Sight.through (look : Reader.Face → Reader.Face) : Sight → Sight
  | .operated answer => .operated { answer with face := look answer.face }
  | .document result face => .document result (look face)
  | .value result face => .value result (look face)
  | .closed face => .closed (look face)
  | .released held face => .released held (look face)

namespace Client

/-- Two clients whose readers and bookmarks differ at most in types and names that are held between elements. -/
structure Veiled (c d : Client) : Prop where
  readers : Reader.Veiled c.reader d.reader
  held : ∀ slot, Option.Rel Bookmark.Veiled (c.held slot) (d.held slot)

variable {c d : Client}

theorem Veiled.of_matches (h : Veiled c d) {α : Type} {x y : Read α}
    (hxy : Matches Reader.Veiled x y c.reader d.reader) :
    (x.run.run c.reader).1 = (y.run.run d.reader).1 ∧
      (x.run.run c.reader).2.face.unnamed = (y.run.run d.reader).2.face.unnamed ∧
      Veiled { c with reader := (x.run.run c.reader).2 } { d with reader := (y.run.run d.reader).2 } :=
  ⟨hxy.1, hxy.2.face_eq, hxy.2, h.held⟩

theorem Veiled.put {r q : Reader} (h : Reader.Veiled r q) {held held' : Nat → Option Bookmark}
    (hheld : ∀ slot, Option.Rel Bookmark.Veiled (held slot) (held' slot)) {b b' : Option Bookmark}
    (hb : Option.Rel Bookmark.Veiled b b') (slot : Nat) :
    Veiled ⟨r, Function.update held slot b⟩ ⟨q, Function.update held' slot b'⟩ := by
  refine ⟨h, fun slot' => ?_⟩
  dsimp only
  rw [Function.update_apply, Function.update_apply]
  split
  · exact hb
  · exact hheld slot'

/-- Both clients hold a bookmark in a slot, or neither does. -/
theorem Veiled.held_cases (h : Veiled c d) (slot : Nat) : c.held slot = none ∧ d.held slot = none ∨
    ∃ b b', c.held slot = some b ∧ d.held slot = some b' ∧ b.Veiled b' := by
  have hslot := h.held slot
  generalize c.held slot = left, d.held slot = right at hslot
  obtain hb | _ := hslot
  · exact .inr ⟨_, _, rfl, rfl, hb⟩
  · exact .inl ⟨rfl, rfl⟩

theorem Veiled.drop (h : Veiled c d) (slot : Nat) : Veiled (c.drop slot) (d.drop slot) := by
  rw [Client.drop, Client.drop]
  obtain ⟨hc, hd⟩ | ⟨b, b', hc, hd, hb⟩ := h.held_cases slot
  · rw [hc, hd]
    exact h
  · rw [hc, hd]
    exact .put (h.readers.dropBookmark hb) h.held .none slot

theorem Veiled.take (h : Veiled c d) (slot : Nat) :
    (Sight.operated (c.step (.take slot)).1).through Reader.Face.unnamed =
        (Sight.operated (d.step (.take slot)).1).through Reader.Face.unnamed ∧
      Veiled (c.step (.take slot)).2 (d.step (.take slot)).2 := by
  rw [Client.step, Client.step, Reader.bookmark_run_eq, Reader.bookmark_run_eq, ← h.readers.isClosed_eq]
  by_cases hclosed : c.reader.isClosed = true
  · rw [if_pos hclosed, if_pos hclosed]
    exact ⟨congrArg (fun face => Sight.operated ⟨.taken (.error .closed), face⟩) h.readers.face_eq, h⟩
  · rw [if_neg hclosed, if_neg hclosed]
    dsimp only
    have hmarked : Veiled { c with reader := c.reader.marked } { d with reader := d.reader.marked } :=
      ⟨h.readers.marked, h.held⟩
    have hdropped := hmarked.drop slot
    refine ⟨?_, .put hdropped.readers hdropped.held (.some h.readers.mark) slot⟩
    have hposition : c.reader.mark.pin.position = d.reader.mark.pin.position := h.readers.position_eq
    have hstate : c.reader.mark.state = d.reader.mark.state := h.readers.state_eq
    rw [Sight.through, Sight.through, hposition, hstate, hdropped.readers.face_eq]

theorem Veiled.step (h : Veiled c d) (operation : Operation) :
    (Sight.operated (c.step operation).1).through Reader.Face.unnamed =
        (Sight.operated (d.step operation).1).through Reader.Face.unnamed ∧
      Veiled (c.step operation).2 (d.step operation).2 := by
  cases operation with
  | call call =>
      obtain ⟨hresult, hface, hveiled⟩ := h.of_matches (call.veiled_read _ _ h.readers)
      refine ⟨?_, hveiled⟩
      rw [step_call, step_call, Sight.through, Sight.through, hresult, hface]
  | take slot => exact h.take slot
  | returnTo slot =>
      obtain ⟨hc, hd⟩ | ⟨b, b', hc, hd, hb⟩ := h.held_cases slot
      · rw [step_returnTo_none hc, step_returnTo_none hd, Sight.through, Sight.through, h.readers.face_eq]
        exact ⟨rfl, h⟩
      · obtain ⟨hresult, hface, hveiled⟩ := h.of_matches (Reader.veiled_returnTo h.readers hb)
        rw [step_returnTo_some hc, step_returnTo_some hd, Sight.through, Sight.through, hresult, hface]
        exact ⟨rfl, hveiled⟩
  | drop slot =>
      have hdropped := h.drop slot
      rw [Client.step, Client.step, Sight.through, Sight.through, hdropped.readers.face_eq]
      exact ⟨rfl, hdropped⟩

theorem Veiled.act (h : Veiled c d) (action : Action) :
    (c.act action).1.through Reader.Face.unnamed = (d.act action).1.through Reader.Face.unnamed ∧
      Veiled (c.act action).2 (d.act action).2 := by
  cases action with
  | operate operation => exact h.step operation
  | readDocument =>
      obtain ⟨hresult, hface, hveiled⟩ := h.of_matches (Reader.veiled_readDocument _ _ h.readers)
      exact ⟨congrArg₂ Sight.document hresult hface, hveiled⟩
  | readValue type =>
      obtain ⟨hresult, hface, hveiled⟩ := h.of_matches (Reader.veiled_readValue type _ _ h.readers)
      exact ⟨congrArg₂ Sight.value hresult hface, hveiled⟩
  | close => exact ⟨congrArg Sight.closed h.readers.close.face_eq, h.readers.close, h.held⟩
  | release =>
      have hsource : c.reader.input.source = d.reader.input.source := by
        rw [h.readers.input_eq]
      refine ⟨?_, h.readers.release, h.held⟩
      exact congrArg₂ Sight.released (congrArg Option.isSome hsource) h.readers.release.face_eq

/-- Actions in turn tell the same of both clients, but for the types and the names. -/
theorem Veiled.perform (h : Veiled c d) (actions : List Action) :
    (c.perform actions).1.map (Sight.through Reader.Face.unnamed) =
        (d.perform actions).1.map (Sight.through Reader.Face.unnamed) ∧
      Veiled (c.perform actions).2 (d.perform actions).2 := by
  induction actions generalizing c d with
  | nil => exact ⟨rfl, h⟩
  | cons action later ih =>
      obtain ⟨hsight, hveiled⟩ := h.act action
      obtain ⟨hsights, hend⟩ := ih hveiled
      exact ⟨congrArg₂ List.cons hsight hsights, hend⟩

end Client

end Aggregation.Wire
