import Aggregation.Proofs.Wire.Agreement
import Aggregation.Proofs.Wire.Reading

/-! What the calls of a reader lead to. A call first looks at the state of the reader, and what it refuses there leaves
the reader as it was. Once it reads, every failure is one that the document does not survive, and the containers that
are open and the state are left in one of few ways. What a caller makes of an error is left open: each call asks only
that what it leaves behind may be left behind. -/

namespace Aggregation.Wire

open Stepping

/-- In which states which kinds of containers may be left. -/
def ReaderState.Closes : ReaderState → FrameKind → Prop
  | .endOfDocument, .document | .endOfDocument, .scopeDocument | .endOfArray, .array => True
  | _, _ => False

/-- What is left at once: one container that is not code, or a scope document and what is around it. -/
def Frame.LeftTogether : List Frame → Prop
  | [frame] => frame.kind ≠ .scopedCode
  | [frame, _] => frame.kind = .scopeDocument
  | _ => False

/-- The innermost container may be left. -/
def Reader.Face.MayClose (f : Face) : Prop := ∃ frame frames, f.frames = frame :: frames ∧ f.state.Closes frame.kind

namespace Replay

open ReplayBuffer

variable {α β : Type}

/-- A step on an input that has its source, which it does not give up, and which fails only for good. -/
def Draws (x : Replay α) : Prop :=
  Ensures (fun b => b.isReleased = false) x (fun _ b => b.isReleased = false)
    fun e b => e.isFatal = true ∧ b.isReleased = false

theorem draws_pure (a : α) : Draws (pure a : Replay α) := ensures_pure fun _ h => h

theorem draws_throw {e : WireError} (he : e.isFatal = true) : Draws (throw e : Replay α) :=
  ensures_throw fun _ h => ⟨he, h⟩

theorem Draws.bind {x : Replay α} {f : α → Replay β} (hx : Draws x) (hf : ∀ a, Draws (f a)) : Draws (x >>= f) :=
  Ensures.bind hx hf

theorem draws_get_bind {f : ReplayBuffer → Replay β} (hf : ∀ b, b.isReleased = false → Draws (f b)) :
    Draws (get >>= f) :=
  fun b hb => hf b hb b hb

theorem draws_set_bind {b : ReplayBuffer} {k : Unit → Replay α} (hb : b.isReleased = false) (hk : ∀ a, Draws (k a)) :
    Draws (set b >>= k) :=
  fun _ _ => hk () b hb

theorem draws_outOfBytes : Draws (outOfBytes : Replay α) := draws_get_bind fun _ _ => draws_throw rfl

theorem draws_checkEnding (ending : Ending) : Draws (checkEnding ending) := by
  cases ending with
  | ends => exact draws_pure ()
  | fails message => exact draws_throw rfl

theorem exists_source {b : ReplayBuffer} (h : b.isReleased = false) : ∃ source, b.source = some source := by
  cases hsource : b.source with
  | none =>
      rw [ReplayBuffer.isReleased, hsource] at h
      cases h
  | some source => exact ⟨source, rfl⟩

theorem draws_fill (wanted : Nat) : Draws (fill wanted) := by
  refine draws_get_bind fun b hb => ?_
  obtain ⟨source, hsource⟩ := exists_source hb
  simp only [hsource]
  refine draws_set_bind rfl fun _ => ?_
  exact ensures_ite (fun _ => draws_pure true) fun _ => (draws_checkEnding _).bind fun _ => draws_pure false

theorem draws_advance (count : Nat) : Draws (advance count) := ensures_modify fun _ h => h

/-- What follows a demand for bytes is done once they are there. -/
theorem draws_demand {count : Nat} {k : Unit → Replay α} (hk : ∀ a, Draws (k a)) :
    Draws (fill count >>= fun filled => if filled then k () else outOfBytes >>= k) :=
  (draws_fill count).bind fun _ => ensures_ite (fun _ => hk ()) fun _ => draws_outOfBytes.bind hk

theorem draws_hasRemaining : Draws hasRemaining := draws_fill 1

theorem draws_bytes (count : Nat) : Draws (bytes count) :=
  draws_demand fun _ => draws_get_bind fun _ _ => (draws_advance count).bind fun _ => draws_pure _

theorem draws_skip (count : Nat) : Draws (skip count) := draws_demand fun _ => draws_advance count

theorem draws_byte : Draws byte :=
  draws_demand fun _ => draws_get_bind fun _ _ => (draws_advance 1).bind fun _ => draws_pure _

theorem draws_natural (count : Nat) : Draws (natural count) := (draws_bytes count).bind fun _ => draws_pure _

theorem draws_int32 : Draws int32 := (draws_natural 4).bind fun _ => draws_pure _

theorem draws_int64 : Draws int64 := (draws_natural 8).bind fun _ => draws_pure _

theorem draws_cstring : Draws cstring := by
  have hlook : Draws keptCstring := by
    refine draws_get_bind fun b hb => ?_
    obtain ⟨source, hsource⟩ := exists_source hb
    cases nulIndex? b.buffer b.available b.cursor with
    | some i => exact draws_set_bind hb fun _ => draws_pure _
    | none =>
        simp only [hsource]
        exact (draws_checkEnding _).bind fun _ => draws_outOfBytes
  refine draws_get_bind fun b hb => ?_
  obtain ⟨source, hsource⟩ := exists_source hb
  simp only [hsource]
  exact ensures_ite (fun _ => draws_set_bind rfl fun _ => hlook) fun _ => hlook

end Replay

namespace Read

open Reader

variable {α β : Type}

/-- A reader that differs from another in its input alone, which has its source. -/
def Drawn (r t : Reader) : Prop := ∃ input : ReplayBuffer, input.isReleased = false ∧ t = { r with input }

/-- A step that reads from an input that has its source, changes nothing else, and fails only for good. -/
def Draws (x : Read α) : Prop :=
  ∀ r, Ensures (Drawn r) x (fun _ => Drawn r) fun e t => e.isFatal = true ∧ Drawn r t

theorem draws_pure (a : α) : Draws (pure a : Read α) := fun _ => ensures_pure fun _ h => h

theorem draws_throw {e : WireError} (he : e.isFatal = true) : Draws (throw e : Read α) :=
  fun _ => ensures_throw fun _ h => ⟨he, h⟩

theorem Draws.bind {x : Read α} {f : α → Read β} (hx : Draws x) (hf : ∀ a, Draws (f a)) : Draws (x >>= f) :=
  fun r => (hx r).bind fun a => hf a r

theorem draws_get_bind {f : Reader → Read β} (hf : ∀ r, Draws (f r)) : Draws (get >>= f) :=
  fun r t ht => hf t r t ht

theorem draws_ite {c : Prop} [Decidable c] {x y : Read α} (hx : Draws x) (hy : Draws y) :
    Draws (if c then x else y) :=
  fun r => ensures_ite (fun _ => hx r) fun _ => hy r

/-- A check that may fail for good, and what follows it. -/
theorem draws_check {c : Prop} [Decidable c] {e : WireError} {k : Unit → Read β} (he : e.isFatal = true)
    (hk : ∀ a, Draws (k a)) : Draws (if c then throw e >>= k else k ()) :=
  draws_ite ((draws_throw he).bind hk) (hk ())

theorem draws_onInput {step : Replay α} (hstep : step.Draws) : Draws (onInput step) := by
  rintro r t ⟨input, hinput, rfl⟩
  obtain ⟨hok, herror⟩ := hstep input hinput
  rw [onInput_run]
  constructor
  · rintro a t hrun
    obtain ⟨hresult, rfl⟩ := Prod.mk.inj hrun
    exact ⟨_, hok a _ (Prod.ext hresult rfl), rfl⟩
  · rintro e t hrun
    obtain ⟨hresult, rfl⟩ := Prod.mk.inj hrun
    obtain ⟨hfatal, hkept⟩ := herror e _ (Prod.ext hresult rfl)
    exact ⟨hfatal, _, hkept, rfl⟩

theorem Draws.discard {x : Read α} (hx : Draws x) : Draws (discard x) := by
  rw [discard_eq_bind]
  exact hx.bind fun _ => draws_pure ()

theorem draws_offset : Draws offset := draws_get_bind fun _ => draws_pure _

theorem draws_length (minimum : Int) : Draws (length minimum) := by
  refine draws_offset.bind fun start => (draws_onInput Replay.draws_int32).bind fun length => ?_
  exact draws_check rfl fun _ => draws_get_bind fun r => draws_check rfl fun _ => draws_pure _

/-- What cannot be read of a name is left out of it. -/
theorem draws_offendingName : Draws offendingName := by
  intro r t ht
  obtain ⟨hok, herror⟩ := draws_onInput Replay.draws_cstring r t ht
  have hmoved : Drawn r ((onInput Replay.cstring).run.run t).2 := by
    rcases hrun : (onInput Replay.cstring).run.run t with ⟨e | name, t'⟩
    · exact (herror e t' hrun).2
    · exact hok name t' hrun
  rw [offendingName_run]
  have hpure (name : String) := draws_pure name r t ht
  split
  · exact hpure "?"
  · split
    · exact hpure _
    · exact hpure "?"
    · exact draws_pure _ r _ hmoved

end Read

namespace Reader

open Read

theorem draws_stringPayload : Draws stringPayload := by
  refine draws_offset.bind fun start => (draws_length 1).bind fun size => ?_
  refine (draws_onInput (Replay.draws_bytes _)).bind fun bytes => draws_check rfl fun _ => ?_
  split
  · exact draws_throw rfl
  · exact draws_pure _

theorem draws_regexPart : Draws regexPart := by
  refine draws_offset.bind fun start => (draws_onInput Replay.draws_cstring).bind fun bytes => ?_
  split
  · exact draws_throw rfl
  · exact draws_pure _

theorem draws_objectIdPayload : Draws objectIdPayload := by
  refine (draws_onInput (Replay.draws_bytes _)).bind fun bytes => ?_
  split
  · exact draws_pure _
  · exact draws_onInput Replay.draws_outOfBytes

theorem draws_decimal128Payload : Draws decimal128Payload := by
  refine (draws_onInput (Replay.draws_bytes _)).bind fun bytes => ?_
  split
  · exact draws_pure _
  · exact draws_onInput Replay.draws_outOfBytes

theorem draws_booleanPayload : Draws booleanPayload := by
  refine draws_offset.bind fun start => (draws_onInput Replay.draws_byte).bind fun b => ?_
  exact draws_ite (draws_pure _) (draws_ite (draws_pure _) (draws_throw rfl))

theorem draws_binaryPayload : Draws binaryPayload := by
  refine draws_offset.bind fun start => (draws_length 0).bind fun outer => ?_
  refine (draws_onInput Replay.draws_byte).bind fun subtype => draws_ite ?_ ?_
  · refine (draws_onInput Replay.draws_int32).bind fun inner => draws_check rfl fun _ => ?_
    exact (draws_onInput (Replay.draws_bytes _)).bind fun _ => draws_pure _
  · exact (draws_onInput (Replay.draws_bytes _)).bind fun _ => draws_pure _

theorem draws_skippedSize {type : ElementType} (htype : type ≠ .endOfDocument) : Draws (skippedSize type) := by
  have hlength (minimum : Int) (size : Int32 → Nat) : Draws (do return size (← length minimum)) :=
    (draws_length minimum).bind fun _ => draws_pure _
  have hcstring := (draws_onInput Replay.draws_cstring).discard
  cases type with
  | string | javaScript | symbol => exact hlength 1 fun n => n.toInt.toNat
  | dbPointer => exact hlength 1 fun n => n.toInt.toNat + 12
  | document | array | scopedCode => exact hlength 5 fun n => n.toInt.toNat - 4
  | binary => exact hlength 0 fun n => n.toInt.toNat + 1
  | regularExpression => exact hcstring.bind fun _ => hcstring.bind fun _ => draws_pure _
  | endOfDocument => exact absurd rfl htype
  | _ => exact draws_pure _

/-! ## Where a reader is -/

/-- Elements are only looked for in a container. -/
def Coherent (r : Reader) : Prop := r.state = .type → r.frames ≠ []

/-- The kinds of the containers that are open, the innermost first. -/
def kinds (r : Reader) : List FrameKind := r.frames.map Frame.kind

/-- An open reader in containers of certain kinds, in a certain state. -/
structure Stands (ks : List FrameKind) (state : ReaderState) (r : Reader) : Prop where
  isReleased_eq : r.input.isReleased = false
  kinds_eq : r.kinds = ks
  state_eq : r.state = state

/-- The state after a value in containers of certain kinds. -/
def following (ks : List FrameKind) : ReaderState := if ks = [] then .done else .type

/-- The kinds that are left open when the innermost document is left: code goes with its scope. -/
def left : List FrameKind → List FrameKind
  | .scopeDocument :: .scopedCode :: ks => ks
  | ks => ks.tail

theorem left_of_scope {ks : List FrameKind} (h : ks.head? = some .scopedCode) :
    left (.scopeDocument :: ks) = ks.tail := by
  obtain ⟨ks, rfl⟩ := List.head?_eq_some_iff.1 h
  rfl

theorem left_of_not {kind : FrameKind} {ks : List FrameKind}
    (h : ¬(kind = .scopeDocument ∧ ks.head? = some .scopedCode)) : left (kind :: ks) = ks := by
  unfold left
  split
  · next heq =>
      obtain ⟨rfl, rfl⟩ := List.cons.inj heq
      exact absurd ⟨rfl, rfl⟩ h
  · rfl

/-- As what a document is entered. -/
def entering (r : Reader) : FrameKind := if r.state = .scopeDocument then .scopeDocument else .document

/-- The kinds that are open after a value that has been read from its start. -/
def outer (r : Reader) : List FrameKind := left (r.entering :: r.kinds)

variable {r t : Reader} {ks : List FrameKind} {state : ReaderState}

theorem coherent_of_state (h : r.state ≠ .type) : r.Coherent := fun hstate => absurd hstate h

theorem Stands.coherent (h : Stands ks state r) (hstate : state = .type → ks ≠ []) : r.Coherent := by
  rintro hr hframes
  refine hstate (h.state_eq.symm.trans hr) ?_
  rw [← h.kinds_eq, kinds, hframes, List.map_nil]

theorem Stands.coherent_of_ne (h : Stands ks state r) (hstate : state ≠ .type) : r.Coherent :=
  h.coherent fun htype => absurd htype hstate

theorem following_coherent (h : Stands ks (following ks) r) : r.Coherent :=
  h.coherent fun hstate hks => by simp [following, hks] at hstate

theorem Stands.isClosed_eq (h : Stands ks state r) (hstate : state ≠ .closed) : r.isClosed = false := by
  rw [isClosed, h.isReleased_eq, h.state_eq, decide_eq_false hstate, Bool.or_false]

theorem outer_of_value (h : r.state = .value) : r.outer = r.kinds := by
  rw [outer, entering, if_neg (by rw [h]; decide)]
  rfl

/-! ## The calls -/

/-- An open reader in certain containers, in a certain state. -/
structure StandsIn (frames : List Frame) (state : ReaderState) (r : Reader) : Prop where
  isReleased_eq : r.input.isReleased = false
  frames_eq : r.frames = frames
  state_eq : r.state = state

variable {frames : List Frame} {kind : FrameKind}

theorem StandsIn.stands (h : StandsIn frames state r) : Stands (frames.map Frame.kind) state r :=
  ⟨h.isReleased_eq, congrArg (List.map Frame.kind) h.frames_eq, h.state_eq⟩

theorem StandsIn.stands_following (h : StandsIn frames (afterContainer frames) t) :
    Stands (frames.map Frame.kind) (following (frames.map Frame.kind)) t := by
  have hstate : afterContainer frames = following (frames.map Frame.kind) := by cases frames <;> rfl
  exact hstate ▸ h.stands

theorem standsIn_of_drawn (h : Drawn r t) : StandsIn r.frames r.state t := by
  obtain ⟨input, hinput, rfl⟩ := h
  exact ⟨hinput, rfl, rfl⟩

/-- A container of a kind has been entered. -/
def Enters (r : Reader) (kind : FrameKind) (state : ReaderState) (t : Reader) : Prop :=
  ∃ frame : Frame, frame.kind = kind ∧ StandsIn (frame :: r.frames) state t

theorem Enters.stands (h : Enters r kind state t) : Stands (kind :: r.kinds) state t := by
  obtain ⟨frame, rfl, h⟩ := h
  exact h.stands

/-- What is lost for good may be left behind in the same containers and the same state. -/
def Bears (E : WireError → Reader → Prop) (r : Reader) : Prop :=
  ∀ e t, e.isFatal = true → t.frames = r.frames → t.state = r.state → E e t

theorem Bears.drawn {E : WireError → Reader → Prop} {e : WireError} (hE : Bears E r) (he : e.isFatal = true)
    (h : Drawn r t) : E e t := by
  obtain ⟨input, -, rfl⟩ := h
  exact hE e _ he rfl rfl

section

variable {α β : Type} {E : WireError → Reader → Prop} {Q : β → Reader → Prop} {x : Read α}

theorem ensures_draws (hx : Draws x) (hE : Bears E r) : Ensures (Drawn r) x (fun _ => Drawn r) E :=
  (hx r).mono_error fun _ _ h => hE.drawn h.1 h.2

theorem ensures_self (h : r.input.isReleased = false) {x : Read β} (hx : Ensures (Drawn r) x Q E) :
    Ensures (· = r) x Q E :=
  hx.mono (fun _ ht => ⟨r.input, h, ht⟩) fun _ _ h => h

theorem isReleased_of_open (h : r.isClosed = false) : r.input.isReleased = false := by
  rw [isClosed, Bool.or_eq_false_iff] at h
  exact h.2

/-- An error for good that leaves the reader as it is. -/
theorem ensures_lose {e : WireError} (hE : Bears E r) (he : e.isFatal = true) :
    Ensures (· = r) (throw e : Read β) Q E := by
  refine ensures_throw ?_
  rintro _ rfl
  exact hE e _ he rfl rfl

/-- An error that a call refuses with, before it has done anything. -/
theorem ensures_throw_self {P : Prop} (hguard : P ∨ ∀ e, E e r) (hnot : ¬P) (e : WireError) :
    Ensures (· = r) (throw e : Read β) Q E :=
  ensures_throw fun _ ht => ht ▸ hguard.resolve_left hnot e

theorem ensures_refuse {P : Prop} (hguard : P ∨ ∀ e, E e r) (hnot : ¬P) (operation : String) :
    Ensures (· = r) (refuse operation : Read β) Q E :=
  ensures_get_bind fun _ hs => hs ▸ ensures_throw_self hguard hnot _

/-- What follows a refusal is not done. -/
theorem ensures_refuse_bind {P : Prop} (hguard : P ∨ ∀ e, E e r) (hnot : ¬P) (operation : String) {k : α → Read β} :
    Ensures (· = r) (refuse operation >>= k) Q E :=
  Ensures.bind (Q := fun _ _ => False) (ensures_refuse hguard hnot operation) fun _ _ h => h.elim

/-- What is done to an open reader. -/
theorem ensures_open (hopen : r.isClosed = false) {k : Unit → Read β} (hk : Ensures (· = r) (k ()) Q E) :
    Ensures (· = r) (ensureOpen >>= k) Q E := by
  rintro s rfl
  have hrun : ensureOpen.run.run s = (.ok (), s) := by
    simp only [ensureOpen, run_bind, run_get, hopen, Bool.false_eq_true, reduceIte, run_pure]
  rw [run_bind_ok hrun]
  exact hk s rfl

theorem ensures_open_get (hopen : r.isClosed = false) {f : Reader → Read β} (hf : Ensures (· = r) (f r) Q E) :
    Ensures (· = r) (do
      ensureOpen
      let r ← get
      f r) Q E :=
  ensures_open hopen (ensures_get_bind fun _ hs => hs ▸ hf)

theorem ensures_expectType {operation : String} {type : ElementType} (hguard : r.currentType = some type ∨ ∀ e, E e r) :
    Ensures (· = r) (expectType operation type) (fun _ t => t = r) E := by
  refine ensures_get_bind ?_
  rintro _ rfl
  split
  · next actual hactual =>
      refine ensures_ite (fun _ => ensures_pure fun _ ht => ht) fun hne => ?_
      exact ensures_throw_self hguard (fun htype => hne (Option.some.inj (hactual.symm.trans htype))) _
  · next hnone => exact ensures_refuse hguard (by rw [hnone]; nofun) _

/-- A value is begun where one of its type comes next. -/
theorem ensures_beginValue {operation : String} {type : ElementType} (hopen : r.isClosed = false)
    (hguard : r.state = .value ∧ r.currentType = some type ∨ ∀ e, E e r) {k : Unit → Read β}
    (hk : r.state = .value → Ensures (· = r) (k ()) Q E) :
    Ensures (· = r) (beginValue operation type >>= k) Q E := by
  have hbegin : Ensures (· = r) (beginValue operation type) (fun _ t => t = r ∧ r.state = .value) E := by
    refine ensures_open_get hopen (ensures_check (fun hne => ?_) fun heq => ?_)
    · exact ensures_refuse hguard (fun h => hne h.1) _
    · have hexpect : Ensures (· = r) (expectType operation type) (fun _ t => t = r) E :=
        ensures_expectType (hguard.imp_left And.right)
      exact hexpect.mono (fun _ ht => ht) fun _ t ht => ⟨ht, not_not.1 heq⟩
  refine hbegin.bind fun _ => ensures_of_eq ?_
  rintro _ ⟨rfl, hstate⟩
  exact hk hstate

/-- After a value comes the next element, or nothing. -/
theorem ensures_endValue {P : Reader → Prop} (hP : ∀ t, P t → t.input.isReleased = false ∧ t.frames = frames) :
    Ensures P endValue (fun _ => StandsIn frames (afterContainer frames)) E := by
  refine ensures_modify fun t ht => ?_
  obtain ⟨hheld, rfl⟩ := hP t ht
  exact ⟨hheld, rfl, rfl⟩

theorem ensures_readScalar {operation : String} {type : ElementType} {payload : Read α} (hpayload : Draws payload)
    (hopen : r.isClosed = false) (hE : Bears E r) (hguard : r.state = .value ∧ r.currentType = some type ∨ ∀ e, E e r) :
    Ensures (· = r) (readScalar operation type payload)
      (fun _ t => r.state = .value ∧ StandsIn r.frames (afterContainer r.frames) t) E := by
  refine ensures_beginValue hopen hguard fun hstate => ensures_self (isReleased_of_open hopen) ?_
  refine (ensures_draws hpayload hE).bind fun a => Ensures.bind (ensures_endValue fun t ht => ?_) fun _ =>
    ensures_pure fun _ h => ⟨hstate, h⟩
  have hstands := standsIn_of_drawn ht
  exact ⟨hstands.isReleased_eq, hstands.frames_eq⟩

theorem ensures_openContainer (hheld : r.input.isReleased = false) (hE : Bears E r) (kind : FrameKind) :
    Ensures (· = r) (openContainer kind) (fun _ => Enters r kind r.state) E := by
  refine ensures_get_bind ?_
  rintro _ rfl
  refine ensures_check (fun _ => ensures_lose hE rfl) fun _ => ?_
  refine ensures_self hheld ((ensures_draws (draws_length 0) hE).bind fun declared => ensures_modify ?_)
  rintro _ ⟨input, hinput, rfl⟩
  exact ⟨_, rfl, hinput, rfl, rfl⟩

/-- The elements of a container come after its length. -/
theorem ensures_startContainer (hheld : r.input.isReleased = false) (hE : Bears E r) (kind : FrameKind) :
    Ensures (· = r) (openContainer kind >>= fun _ => modify fun r => { r with state := .type })
      (fun _ => Enters r kind .type) E :=
  (ensures_openContainer hheld hE kind).bind fun _ => ensures_modify fun _ ⟨frame, hkind, ht⟩ =>
    ⟨frame, hkind, ht.isReleased_eq, ht.frames_eq, rfl⟩

/-- What enters a document does not do so at the end of another one. -/
theorem ensures_startDocument (hopen : r.isClosed = false) (hE : Bears E r)
    (hguard : r.MayEnter r.entering ∨ ∀ e, E e r) :
    Ensures (· = r) startDocument
      (fun _ t => (r.state ≠ .endOfDocument ∧ r.state ≠ .endOfArray) ∧ Enters r r.entering .type t) E := by
  have hentering (hstate : r.state ≠ .scopeDocument) : .document = r.entering := (if_neg hstate).symm
  have hstart {kind : FrameKind} (hkind : kind = r.entering) (hnot : r.state ≠ .endOfDocument ∧ r.state ≠ .endOfArray) :
      Ensures (· = r) (do
        let kind ← pure kind
        openContainer kind
        modify fun r => { r with state := .type })
        (fun _ t => (r.state ≠ .endOfDocument ∧ r.state ≠ .endOfArray) ∧ Enters r r.entering .type t) E := by
    refine Ensures.bind (ensures_pure (Q := fun kind t => kind = r.entering ∧ t = r) fun _ ht => ⟨hkind, ht⟩) ?_
    refine fun _ => ensures_of_eq ?_
    rintro t ⟨rfl, rfl⟩
    exact (ensures_startContainer (isReleased_of_open hopen) hE _).mono (fun _ h => h) fun _ _ h => ⟨hnot, h⟩
  refine ensures_open_get hopen ?_
  split
  · next hstate => exact hstart (hentering (by rw [hstate]; decide)) (by rw [hstate]; decide)
  · next hstate => exact hstart (hentering (by rw [hstate]; decide)) (by rw [hstate]; decide)
  · next hstate => exact hstart (if_pos hstate).symm (by rw [hstate]; decide)
  · next hstate =>
      have htype : r.currentType = some .document ∨ ∀ e, E e r := by
        refine hguard.imp_left fun henter => ?_
        rcases henter with ⟨h | h, -⟩ | ⟨h, -⟩ | ⟨-, htype, -⟩
        · exact absurd (hstate.symm.trans h) (by decide)
        · exact absurd (hstate.symm.trans h) (by decide)
        · exact absurd (hstate.symm.trans h) (by decide)
        · exact htype
      refine (ensures_expectType htype).bind fun _ => ensures_of_eq ?_
      rintro t rfl
      exact hstart (hentering (by rw [hstate]; decide)) (by rw [hstate]; decide)
  · next hinitial hdone hscope hvalue =>
      refine ensures_refuse_bind hguard (fun henter => ?_) _
      rcases henter with ⟨h | h, -⟩ | ⟨h, -⟩ | ⟨h, -⟩
      · exact hinitial h
      · exact hdone h
      · exact hscope h
      · exact hvalue h

theorem ensures_startArray (hopen : r.isClosed = false) (hE : Bears E r)
    (hguard : r.state = .value ∧ r.currentType = some .array ∨ ∀ e, E e r) :
    Ensures (· = r) startArray (fun _ t => r.state = .value ∧ Enters r .array .type t) E :=
  ensures_beginValue hopen hguard fun hstate =>
    (ensures_startContainer (isReleased_of_open hopen) hE .array).mono (fun _ h => h) fun _ _ h => ⟨hstate, h⟩

/-- Code that cannot be read is found out once it has been entered. -/
theorem ensures_readScopedCode (hopen : r.isClosed = false) (hE : Bears E r)
    (hcode : r.state = .value → ∀ s, Enters r .scopedCode .value s → Bears E s)
    (hguard : r.state = .value ∧ r.currentType = some .scopedCode ∨ ∀ e, E e r) :
    Ensures (· = r) readScopedCode (fun _ t => r.state = .value ∧ Enters r .scopedCode .scopeDocument t) E := by
  refine ensures_beginValue hopen hguard fun hstate => ?_
  refine (ensures_openContainer (isReleased_of_open hopen) hE .scopedCode).bind fun _ => ensures_of_eq fun s hs => ?_
  rw [hstate] at hs
  have hbears := hcode hstate s hs
  obtain ⟨frame, hkind, hstands⟩ := hs
  refine ensures_self hstands.isReleased_eq ((ensures_draws draws_stringPayload hbears).bind fun code => ?_)
  refine Ensures.bind (ensures_modify (Q := fun _ => Enters r .scopedCode .scopeDocument) ?_) fun _ =>
    ensures_pure fun _ h => ⟨hstate, h⟩
  rintro _ ⟨input, hinput, rfl⟩
  exact ⟨frame, hkind, hinput, hstands.frames_eq, rfl⟩

/-- The state once the terminator has been read. -/
def terminated (ks : List FrameKind) : ReaderState := if ks.head? = some .array then .endOfArray else .endOfDocument

/-- The containers once the tag of an element has been read: an array counts its items. -/
def counted : List Frame → List Frame
  | [] => []
  | frame :: frames => (if frame.kind = .array then { frame with index := frame.index + 1 } else frame) :: frames

theorem kinds_counted (frames : List Frame) : (counted frames).map Frame.kind = frames.map Frame.kind := by
  cases frames with
  | nil => rfl
  | cons frame frames =>
      rw [counted, List.map_cons, List.map_cons]
      split <;> rfl

theorem StandsIn.stands_counted (h : StandsIn (counted frames) state t) : Stands (frames.map Frame.kind) state t :=
  kinds_counted frames ▸ h.stands

/-- What looking for an element leads to, where the bytes that may be read for tags are known. -/
inductive Looked (B : UInt8 → Prop) (r : Reader) : ElementType → Reader → Prop
  /-- At the top level a document comes. -/
  | top {t : Reader} (hfrom : r.state = .initial ∨ r.state = .done) (h : StandsIn r.frames .value t) :
      Looked B r .document t
  /-- The terminator of a container has been read. -/
  | ends {t : Reader} (hfrom : r.state = .type) (hzero : B 0) (h : StandsIn r.frames (terminated r.kinds) t) :
      Looked B r .endOfDocument t
  /-- The tag of an element has been read. -/
  | finds {type : ElementType} {t : Reader} (hfrom : r.state = .type) (htype : type ≠ .endOfDocument)
      (h : StandsIn (counted r.frames) .name t) (hcurrent : t.currentType = some type) : Looked B r type t

/-- A tag other than the terminator, in a container. -/
theorem ensures_elementTag (hE : Bears E r) {tag : UInt8} (hzero : ¬tag = 0) :
    Ensures (Drawn r) (elementTag tag)
      (fun type t => type ≠ .endOfDocument ∧ StandsIn r.frames .name t ∧ t.currentType = some type) E := by
  rw [elementTag]
  cases htag : ElementType.ofTag? tag with
  | some type =>
      refine Ensures.bind (Q := fun _ t => StandsIn r.frames .name t ∧ t.currentType = some type) (ensures_modify ?_)
        fun _ => ensures_pure fun t ht => ⟨?_, ht⟩
      · rintro _ ⟨input, hinput, rfl⟩
        exact ⟨⟨hinput, rfl, rfl⟩, rfl⟩
      · rintro rfl
        exact hzero (ElementType.tag_of_ofTag? htag).symm
  | none =>
      refine (ensures_draws draws_offendingName hE).bind fun leaf => ensures_get_bind ?_
      rintro _ ⟨input, -, rfl⟩
      refine Ensures.bind (ensures_modify (Q := fun _ t => t.frames = r.frames ∧ t.state = r.state) ?_) fun _ =>
        ensures_throw fun t ht => hE _ t rfl ht.1 ht.2
      rintro _ rfl
      exact ⟨rfl, rfl⟩

theorem ensures_readType {B : UInt8 → Prop} (hopen : r.isClosed = false)
    (hbyte : Ensures (· = r) (onInput Replay.byte) (fun tag t => Drawn r t ∧ B tag) E)
    (hE : r.state = .type → Bears E { r with frames := counted r.frames })
    (hempty : r.state = .type → r.frames = [] → ∀ e t, Drawn r t → E e t) (hguard : r.state = .type ∨ ∀ e, E e r) :
    Ensures (· = r) readType (Looked B r) E := by
  have hheld := isReleased_of_open hopen
  have htop (hfrom : r.state = .initial ∨ r.state = .done) : Ensures (· = r) (do
      modify fun r => { r with currentType := some .document, currentName := none, state := .value }
      return ElementType.document) (Looked B r) E := by
    refine Ensures.bind (ensures_modify (Q := fun _ => StandsIn r.frames .value) ?_) fun _ =>
      ensures_pure fun _ h => .top hfrom h
    rintro _ rfl
    exact ⟨hheld, rfl, rfl⟩
  refine ensures_open_get hopen ?_
  split
  · next hstate => exact htop (.inl hstate)
  · next hstate => exact htop (.inr hstate)
  · next hstate =>
      refine hbyte.bind fun tag => ensures_get_bind ?_
      rintro _ ⟨⟨input, hinput, rfl⟩, hB⟩
      cases hframes : r.frames with
      | nil =>
          -- the one refusal that comes after reading
          refine ensures_get_bind ?_
          rintro _ rfl
          refine ensures_throw ?_
          rintro _ rfl
          exact hempty hstate hframes _ _ ⟨input, hinput, by rw [hframes]⟩
      | cons frame frames =>
          have hkinds : r.kinds = frame.kind :: frames.map Frame.kind := by rw [kinds, hframes, List.map_cons]
          dsimp only
          refine ensures_ite (fun hzero => ?_) fun hzero => ?_
          · refine Ensures.bind (ensures_modify (Q := fun _ => StandsIn r.frames (terminated r.kinds)) ?_) fun _ =>
              ensures_pure fun _ ht => .ends hstate (hzero ▸ hB) ht
            rintro _ rfl
            refine ⟨hinput, hframes.symm, ?_⟩
            simp only [terminated, hkinds, List.head?_cons, Option.some.injEq]
          · have htag := (ensures_elementTag (hE hstate) hzero).mono (fun _ h => h) fun type t ht =>
              (.finds hstate ht.1 ht.2.1 ht.2.2 : Looked B r type t)
            refine ensures_ite (fun harray => ?_) fun hother => ?_
            · refine Ensures.bind (ensures_modify ?_) fun _ => htag
              rintro _ rfl
              exact ⟨input, hinput, by rw [hframes, counted, if_pos harray]⟩
            · refine htag.mono ?_ fun _ _ h => h
              rintro _ rfl
              exact ⟨input, hinput, by rw [hframes, counted, if_neg hother]⟩
  · next hinitial hdone htype => exact ensures_refuse hguard htype _

/-- After a name comes the value. -/
structure NameRead (r t : Reader) : Prop extends StandsIn r.frames .value t where
  from_eq : r.state = .name
  currentType_eq : t.currentType = r.currentType

theorem nameRead_of_drawn (hstate : r.state = .name) (h : Drawn r t) (name : Option String) :
    NameRead r { t with currentName := name, state := .value } := by
  obtain ⟨input, hinput, rfl⟩ := h
  exact ⟨⟨hinput, rfl, rfl⟩, hstate, rfl⟩

theorem ensures_readName (hopen : r.isClosed = false) (hE : Bears E r) (hguard : r.state = .name ∨ ∀ e, E e r) :
    Ensures (· = r) readName (fun _ => NameRead r) E := by
  refine ensures_open_get hopen (ensures_check (fun hne => ensures_refuse hguard hne _) fun hname => ?_)
  refine ensures_self (isReleased_of_open hopen) ((ensures_draws draws_offset hE).bind fun start => ?_)
  refine (ensures_draws (draws_onInput Replay.draws_cstring) hE).bind fun bytes => ?_
  split
  · exact ensures_throw fun t ht => hE.drawn rfl ht
  · exact Ensures.bind (ensures_modify fun t ht => nameRead_of_drawn (not_not.1 hname) ht _) fun _ =>
      ensures_pure fun _ h => h

theorem ensures_expectName (hopen : r.isClosed = false) (hE : Bears E r) (hguard : r.state = .name ∨ ∀ e, E e r)
    (hwrong : ∀ e t, e.isFatal = true → NameRead r t → E e t) (expected : String) :
    Ensures (· = r) (expectName expected) (fun _ => NameRead r) E := by
  refine (ensures_readName hopen hE hguard).bind fun actual => ensures_ite (fun _ => ?_) fun _ => ?_
  · refine ensures_get_bind fun t ht => ensures_throw ?_
    rintro _ rfl
    exact hwrong _ _ rfl ht
  · exact ensures_pure fun _ h => h

theorem ensures_skipName (hopen : r.isClosed = false) (hE : Bears E r) (hguard : r.state = .name ∨ ∀ e, E e r) :
    Ensures (· = r) skipName (fun _ => NameRead r) E := by
  refine ensures_open_get hopen (ensures_check (fun hne => ensures_refuse hguard hne _) fun hname => ?_)
  refine ensures_self (isReleased_of_open hopen) ?_
  exact (ensures_draws (draws_onInput Replay.draws_cstring).discard hE).bind fun _ =>
    ensures_modify fun t ht => nameRead_of_drawn (not_not.1 hname) ht none

theorem ensures_isAtEnd (hopen : r.isClosed = false) (hE : Bears E r) :
    Ensures (· = r) isAtEnd (fun _ => Drawn r) E := by
  have hheld := isReleased_of_open hopen
  have hask : Ensures (· = r) (do return !(← onInput Replay.hasRemaining)) (fun _ => Drawn r) E :=
    ensures_self hheld ((ensures_draws (draws_onInput Replay.draws_hasRemaining) hE).bind fun _ =>
      ensures_pure fun _ h => h)
  refine ensures_open_get hopen ?_
  split
  · exact hask
  · exact hask
  · exact ensures_self hheld (ensures_pure fun _ h => h)

theorem ensures_skipValue (hopen : r.isClosed = false) (hE : Bears E r) (hself : ∀ e, E e r) :
    Ensures (· = r) skipValue (fun _ t => r.state = .value ∧ StandsIn r.frames (afterContainer r.frames) t) E := by
  refine ensures_open_get hopen (ensures_check (fun hne => ensures_refuse (.inr hself) hne _) fun hvalue => ?_)
  refine ensures_get_bind ?_
  rintro _ rfl
  split
  · exact ensures_refuse (P := False) (.inr hself) id _
  · next type htype =>
      by_cases hend : type = .endOfDocument
      · subst hend
        exact ensures_refuse_bind (P := False) (.inr hself) id _
      · refine ensures_self (isReleased_of_open hopen) ?_
        refine (ensures_draws (draws_skippedSize hend) hE).bind fun size => ?_
        refine (ensures_draws (draws_onInput (Replay.draws_skip size)) hE).bind fun _ => ?_
        refine (ensures_endValue fun t ht => ?_).mono (fun _ h => h) fun _ _ h => ⟨not_not.1 hvalue, h⟩
        have hstands := standsIn_of_drawn ht
        exact ⟨hstands.isReleased_eq, hstands.frames_eq⟩

/-- Containers have been left, from where the innermost one may be left. -/
structure Left (r : Reader) (gone : List Frame) (t : Reader) : Prop where
  mayClose : r.face.MayClose
  leftTogether : Frame.LeftTogether gone
  frames_eq : r.frames = gone ++ t.frames

/-- How a container is not left: what would leave it is refused, or its length is wrong. In the second case it stays
left. -/
inductive NotLeft (r : Reader) : WireError → Reader → Prop
  | refused (operation : String) (cause : Premature) : NotLeft r (.prematureEnd operation cause) r
  | mismatched {gone : List Frame} {t : Reader} (hleft : Left r gone t) (hstate : t.state = r.state) (path : String)
      (declared : Int) (consumed : Nat) : NotLeft r (.lengthMismatch path declared consumed) t

/-- All that goes with the innermost container has been left, and what follows it as a value follows. -/
def LeftWhole (r t : Reader) : Prop :=
  t.kinds = left r.kinds ∧ StandsIn t.frames (afterContainer t.frames) t ∧ ∃ gone, Left r gone t

theorem ensures_notLeft {operation : String} {cause : Premature} {k : Unit → Read Unit}
    {Q : Unit → Reader → Prop} : Ensures (· = r) (throw (.prematureEnd operation cause) >>= k) Q (NotLeft r) := by
  refine ensures_throw_bind ?_
  rintro _ rfl
  exact .refused operation cause

/-- A container is gone as soon as it is closed, whatever its length. -/
theorem Left.ensures_closeContainer {s : Reader} {gone : List Frame} {frame : Frame}
    (h : Left r gone { s with frames }) (hframes : s.frames = frame :: frames) (hstate : s.state = r.state) :
    Ensures (· = s) closeContainer (fun closed t => closed = frame ∧ t = { s with frames }) (NotLeft r) := by
  refine ensures_get_bind ?_
  rintro _ rfl
  simp only [hframes]
  refine ensures_set_bind (ensures_check (fun _ => ensures_throw ?_) fun _ => ensures_pure fun _ ht => ⟨rfl, ht⟩)
  rintro _ rfl
  exact .mismatched h hstate _ _ _

theorem ensures_finishContainer (hheld : r.input.isReleased = false) :
    Ensures (· = r) finishContainer (fun _ => StandsIn r.frames (afterContainer r.frames)) E := by
  refine Ensures.bind (ensures_modify
    (Q := fun _ t => t.input.isReleased = false ∧ t.frames = r.frames) ?_) fun _ => ?_
  · rintro _ rfl
    exact ⟨hheld, rfl⟩
  · refine (ensures_endValue fun _ ht => ht).bind fun _ => ensures_get_bind fun s hs => ensures_ite (fun _ => ?_) ?_
    · refine ensures_modify ?_
      rintro _ rfl
      exact ⟨hs.isReleased_eq, hs.frames_eq, hs.state_eq⟩
    · exact fun _ => ensures_pure fun _ ht => ht ▸ hs

theorem Left.ensures_finishContainer {s : Reader} {gone : List Frame} (h : Left r gone s)
    (hkinds : s.kinds = left r.kinds) (hheld : s.input.isReleased = false) :
    Ensures (· = s) finishContainer (fun _ => LeftWhole r) (NotLeft r) :=
  (Reader.ensures_finishContainer hheld).mono (fun _ h => h) fun _ _ ht =>
    ⟨(congrArg (List.map Frame.kind) ht.frames_eq).trans hkinds, ht.frames_eq.symm ▸ ht,
      gone, h.mayClose, h.leftTogether, h.frames_eq.trans (congrArg _ ht.frames_eq.symm)⟩

theorem Left.ensures_discard_closeContainer {s : Reader} {gone : List Frame} {frame : Frame}
    (h : Left r gone { s with frames }) (hframes : s.frames = frame :: frames) (hstate : s.state = r.state)
    (hkinds : frames.map Frame.kind = left r.kinds) (hheld : s.input.isReleased = false) :
    Ensures (· = s) (discard closeContainer >>= fun _ => finishContainer) (fun _ => LeftWhole r) (NotLeft r) := by
  rw [discard_eq_bind, bind_assoc]
  refine (h.ensures_closeContainer hframes hstate).bind fun _ => ensures_of_eq ?_
  rintro _ ⟨rfl, rfl⟩
  rw [pure_bind]
  exact h.ensures_finishContainer hkinds hheld

theorem ensures_endDocument (hopen : r.isClosed = false) :
    Ensures (· = r) endDocument (fun _ => LeftWhole r) (NotLeft r) := by
  have hheld := isReleased_of_open hopen
  refine ensures_open_get hopen ?_
  split
  · refine ensures_throw ?_
    rintro _ rfl
    exact .refused _ _
  · next frame frames hframes =>
      refine ensures_ite (fun _ => ensures_notLeft) fun hkind => ensures_ite (fun _ => ensures_notLeft) fun hstate => ?_
      have hmay : r.face.MayClose := by
        refine ⟨frame, frames, hframes, ?_⟩
        show r.state.Closes frame.kind
        rw [not_not.1 hstate]
        cases hcases : frame.kind with
        | document | scopeDocument => trivial
        | array => exact absurd (.inl hcases) hkind
        | scopedCode => exact absurd (.inr hcases) hkind
      have hleft : Left r [frame] { r with frames } := ⟨hmay, fun hcode => hkind (.inr hcode), hframes⟩
      have hkinds : r.kinds = frame.kind :: frames.map Frame.kind := by rw [kinds, hframes, List.map_cons]
      refine (hleft.ensures_closeContainer hframes rfl).bind fun closed => ensures_get_bind ?_
      rintro _ ⟨rfl, rfl⟩
      refine ensures_ite (fun hscope => ?_) fun hscope => ?_
      · obtain ⟨around, haround, hcode⟩ := Option.map_eq_some_iff.1 hscope.2
        obtain ⟨frames, rfl⟩ := List.head?_eq_some_iff.1 haround
        have hboth : Left r [closed, around] { r with frames } := ⟨hmay, hscope.1, hframes⟩
        refine hboth.ensures_discard_closeContainer (s := { r with frames := around :: frames }) rfl rfl ?_ hheld
        rw [hkinds, hscope.1, left_of_scope (by rw [List.map_cons, List.head?_cons, hcode])]
        rfl
      · refine hleft.ensures_finishContainer ?_ hheld
        rw [hkinds, left_of_not (by rwa [List.head?_map])]
        rfl

theorem ensures_endArray (hopen : r.isClosed = false) :
    Ensures (· = r) endArray (fun _ => LeftWhole r) (NotLeft r) := by
  refine ensures_open_get hopen ?_
  refine ensures_ite (fun _ => ensures_notLeft) fun hkind => ensures_ite (fun _ => ensures_notLeft) fun hstate => ?_
  obtain ⟨frame, hframe, harray⟩ := Option.map_eq_some_iff.1 (not_not.1 hkind)
  obtain ⟨frames, hframes⟩ := List.head?_eq_some_iff.1 hframe
  have hmay : r.face.MayClose := by
    refine ⟨frame, frames, hframes, ?_⟩
    show r.state.Closes frame.kind
    rw [not_not.1 hstate, harray]
    trivial
  have hleft : Left r [frame] { r with frames } := by
    refine ⟨hmay, ?_, hframes⟩
    show frame.kind ≠ .scopedCode
    rw [harray]
    decide
  refine hleft.ensures_discard_closeContainer hframes rfl ?_ (isReleased_of_open hopen)
  rw [kinds, hframes, List.map_cons, harray, left_of_not fun h => absurd h.1 (by decide)]

end

end Reader

end Aggregation.Wire
