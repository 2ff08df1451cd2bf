import Aggregation.Proofs.Wire.Encoding

/-! The calls of a writer, one by one and in any order, whether they succeed or not. Few calls leave anything behind
when they fail: a value that is refused after its tag and name have been put down, a container that turns out too
large when it is closed, and a document that the sink does not take. -/

namespace Aggregation.Wire.Writer

open Stepping Layout Write

/-- What can be asked of a writer. -/
inductive Call where
  | writeName (name : String)
  | startDocument
  | endDocument
  | startArray
  | endArray
  | writeDouble (x : Binary64)
  | writeString (s : String)
  | writeBinary (subtype : UInt8) (bytes : List UInt8)
  | writeUndefined
  | writeObjectId (id : ObjectId)
  | writeBoolean (b : Bool)
  | writeDateTime (millis : Int64)
  | writeNull
  | writeRegularExpression (pattern options : String)
  | writeDbPointer (collection : String) (id : ObjectId)
  | writeJavaScript (code : String)
  | writeSymbol (name : String)
  | writeScopedCode (code : String)
  | writeInt32 (n : Int32)
  | writeTimestamp (time increment : UInt32)
  | writeInt64 (n : Int64)
  | writeDecimal128 (d : Decimal128)
  | writeMinKey
  | writeMaxKey

def Call.write : Call → Write Unit
  | writeName name => Writer.writeName name
  | startDocument => Writer.startDocument
  | endDocument => Writer.endDocument
  | startArray => Writer.startArray
  | endArray => Writer.endArray
  | writeDouble x => Writer.writeDouble x
  | writeString s => Writer.writeString s
  | writeBinary subtype bytes => Writer.writeBinary subtype bytes
  | writeUndefined => Writer.writeUndefined
  | writeObjectId id => Writer.writeObjectId id
  | writeBoolean b => Writer.writeBoolean b
  | writeDateTime millis => Writer.writeDateTime millis
  | writeNull => Writer.writeNull
  | writeRegularExpression pattern options => Writer.writeRegularExpression pattern options
  | writeDbPointer collection id => Writer.writeDbPointer collection id
  | writeJavaScript code => Writer.writeJavaScript code
  | writeSymbol name => Writer.writeSymbol name
  | writeScopedCode code => Writer.writeScopedCode code
  | writeInt32 n => Writer.writeInt32 n
  | writeTimestamp time increment => Writer.writeTimestamp time increment
  | writeInt64 n => Writer.writeInt64 n
  | writeDecimal128 d => Writer.writeDecimal128 d
  | writeMinKey => Writer.writeMinKey
  | writeMaxKey => Writer.writeMaxKey

/-- What can be done with a writer. -/
inductive Operation where
  | call (call : Call)
  | close
  /-- Takes the sink back. -/
  | release

/-- The writer after an operation, successful or not. -/
def operate (w : Writer) : Operation → Writer
  | .call call => (call.write.run.run w).2
  | .close => w.close
  | .release => w.release.2

/-- The writer after operations in turn. -/
def after (w : Writer) (operations : List Operation) : Writer := operations.foldl operate w

theorem after_append (w : Writer) (before later : List Operation) :
    w.after (before ++ later) = (w.after before).after later :=
  List.foldl_append

theorem after_cons (w : Writer) (operation : Operation) (later : List Operation) :
    w.after (operation :: later) = (w.operate operation).after later := rfl

/-- The name of the next element, and the writer once it has been taken. -/
def named? (w : Writer) : Option (String × Writer) :=
  match w.frames with
  | [] => none
  | frame :: frames =>
    if frame.kind = .array then
      some (toString frame.index, { w with frames := { frame with index := frame.index + 1 } :: frames })
    else w.pendingName.map fun name => (name, { w with pendingName := none })

/-- From one writer to the other, a value of a type has been begun: its tag and its name are there. -/
structure Begins (w : Writer) (type : ElementType) (t : Writer) : Prop where
  isClosed_eq : w.isClosed = false
  state_eq : w.state = .value
  named : ∃ name w', w.named? = some (name, w') ∧ t = w'.append (head type (Utf8.encode name))

/-- From one writer to the other, containers may have gone, and bytes of the document may be different. -/
def Closing (w t : Writer) : Prop := ∃ frames pending, frames <:+ w.frames ∧ t = { w with frames, pending }

/-- What a call that fails may leave behind. -/
inductive Leaves (w : Writer) : Call → WireError → Writer → Prop
  | same (c : Call) (e : WireError) : Leaves w c e w
  | tornPattern {pattern options : String} {t : Writer} (hbegins : w.Begins .regularExpression t)
      (hnul : '\x00' ∈ pattern.toList) :
      Leaves w (.writeRegularExpression pattern options) (.invalidName (shown pattern)) t
  | tornOptions {pattern options : String} {t : Writer} (hbegins : w.Begins .regularExpression t)
      (hpattern : '\x00' ∉ pattern.toList) (hnul : '\x00' ∈ options.toList) :
      Leaves w (.writeRegularExpression pattern options) (.invalidName (shown options)) (t.append (cstring pattern))
  | tooDeep {c : Call} {type : ElementType} {t : Writer} {depth max : Nat} (hbegins : w.Begins type t) :
      Leaves w c (.nestingTooDeep depth max) t
  | tooLarge {c : Call} {t : Writer} {size max : Int} (hclosing : w.Closing t) (hstate : w.state ≠ .scopeDocument)
      (hframes : w.frames ≠ []) (hpositive : 0 ≤ w.limits.maxDocumentSize)
      (hlarge : w.limits.maxDocumentSize < t.pending.size) :
      Leaves w c (.documentTooLarge size max) t
  | untaken {c : Call} {t : Writer} {sink : Sink} {message : String} (hclosing : w.Closing t)
      (hstate : w.state ≠ .scopeDocument) (hrefusal : w.sink.refusal ≠ none) :
      Leaves w c (.io message) { t with sink }

/-- Every scope document lies in a container. -/
def Nested : List OpenFrame → Prop
  | [] => True
  | frame :: frames => (frame.kind = .scopeDocument → frames ≠ []) ∧ Nested frames

/-- What holds of a writer at any time: a scope document has something around it, also when it is about to come. -/
structure Coherent (w : Writer) : Prop where
  nested : Nested w.frames
  scope : w.state = .scopeDocument → w.frames.head?.map OpenFrame.kind = some .scopedCode

theorem nested_of_suffix {frames later : List OpenFrame} (hsuffix : later <:+ frames) (h : Nested frames) :
    Nested later := by
  obtain ⟨before, rfl⟩ := hsuffix
  induction before with
  | nil => exact h
  | cons frame before ih => exact ih h.2

theorem coherent_of_ne {w : Writer} (hnested : Nested w.frames) (hstate : w.state ≠ .scopeDocument) : w.Coherent :=
  ⟨hnested, fun h => absurd h hstate⟩

section

variable {w t : Writer} {type : ElementType}

theorem closing_append (w : Writer) (bytes : List UInt8) : w.Closing (w.append bytes) :=
  ⟨w.frames, _, List.suffix_refl _, rfl⟩

/-- Taking a name changes no container but for an index. -/
theorem nested_named? {name : String} (hnested : Nested w.frames) (hnamed : w.named? = some (name, t)) :
    Nested t.frames ∧ t.frames ≠ [] ∧ t.state = w.state := by
  rw [named?] at hnamed
  split at hnamed
  · cases hnamed
  · next frame frames hframes =>
      rw [hframes] at hnested
      split at hnamed
      · cases hnamed
        exact ⟨hnested, List.cons_ne_nil _ _, rfl⟩
      · obtain ⟨given, -, hgiven⟩ := Option.map_eq_some_iff.1 hnamed
        cases hgiven
        rw [hframes]
        exact ⟨hnested, List.cons_ne_nil _ _, rfl⟩

theorem Begins.nested (h : w.Begins type t) (hnested : Nested w.frames) :
    Nested t.frames ∧ t.frames ≠ [] ∧ t.state = .value := by
  obtain ⟨name, w', hnamed, rfl⟩ := h.named
  obtain ⟨hframes, hne, hstate⟩ := nested_named? hnested hnamed
  exact ⟨hframes, hne, hstate.trans h.state_eq⟩

/-- A call that fails leaves a scope document something around it. -/
theorem Coherent.leaves (h : w.Coherent) {c : Call} {e : WireError} (hleaves : w.Leaves c e t) : t.Coherent := by
  have hbegun {type t} (hbegins : w.Begins type t) : t.Coherent := by
    obtain ⟨hnested, -, hstate⟩ := hbegins.nested h.nested
    exact coherent_of_ne hnested (by rw [hstate]; nofun)
  cases hleaves with
  | same => exact h
  | tornPattern hbegins => exact hbegun hbegins
  | tornOptions hbegins => exact ⟨(hbegun hbegins).nested, (hbegun hbegins).scope⟩
  | tooDeep hbegins => exact hbegun hbegins
  | tooLarge hclosing hstate =>
      obtain ⟨frames, pending, hsuffix, rfl⟩ := hclosing
      exact coherent_of_ne (nested_of_suffix hsuffix h.nested) hstate
  | untaken hclosing hstate =>
      obtain ⟨frames, pending, hsuffix, rfl⟩ := hclosing
      exact coherent_of_ne (nested_of_suffix hsuffix h.nested) hstate

end

/-! ## The steps that calls are made of -/

section

variable {w : Writer} {P : Writer → Prop} {Q : Unit → Writer → Prop} {E : WireError → Writer → Prop}

theorem takeName_run_eq (operation : String) (w : Writer) :
    (takeName operation).run.run w = match w.named? with
      | some (name, t) => (.ok name, t)
      | none => (.error (.invalidState operation w.state.label), w) := by
  rw [takeName, run_bind_ok (run_get w), named?]
  cases w.frames with
  | nil => rfl
  | cons frame frames =>
      dsimp only
      split
      · rfl
      · cases w.pendingName <;> rfl

theorem ensures_throw_self {α : Type} {R : α → Writer → Prop} (hE : ∀ e, E e w) (e : WireError) :
    Ensures (· = w) (throw e : Write α) R E := by
  apply ensures_throw
  rintro t rfl
  exact hE e

/-- A step that refuses what is not allowed leaves the writer as it was. -/
theorem ensures_refuse {α : Type} {R : α → Writer → Prop} (hE : ∀ e, E e w) (operation : String) :
    Ensures (· = w) (refuse operation) R E := by
  apply ensures_get_bind
  rintro s rfl
  exact ensures_throw_self hE _

/-- What is done only to a writer that is open. -/
theorem ensures_open_get {f : Writer → Write Unit} (hE : ∀ e, E e w)
    (hf : w.isClosed = false → Ensures (· = w) (f w) Q E) :
    Ensures (· = w) (do
      ensureOpen
      let w ← get
      f w) Q E := by
  have hopen : Ensures (· = w) ensureOpen (fun _ t => t = w ∧ w.isClosed = false) E := by
    apply ensures_get_bind
    rintro s rfl
    apply ensures_ite
    · exact fun _ => ensures_throw_self hE _
    · intro hopen
      apply ensures_pure
      rintro t rfl
      exact ⟨rfl, Bool.eq_false_iff.2 hopen⟩
  refine hopen.bind fun _ => ?_
  apply ensures_get_bind
  rintro s ⟨rfl, hopen⟩
  exact hf hopen

theorem ensures_takeName (hE : ∀ e, E e w) (operation : String) :
    Ensures (· = w) (takeName operation) (fun name t => w.named? = some (name, t)) E := by
  rintro s rfl
  rw [takeName_run_eq]
  cases hnamed : s.named? with
  | none =>
      constructor
      · intro name t h
        cases h
      · intro e t h
        cases h
        exact hE _
  | some given =>
      constructor
      · intro name t h
        cases h
        rfl
      · intro e t h
        cases h

theorem ensures_put {bytes : List UInt8} (h : ∀ t, P t → Q () (t.append bytes)) : Ensures P (put bytes) Q E :=
  ensures_modify h

theorem ensures_beginValue (hE : ∀ e, E e w) (operation : String) (type : ElementType) :
    Ensures (· = w) (beginValue operation type) (fun _ t => w.Begins type t) E := by
  apply ensures_open_get hE
  intro hopen
  apply ensures_check
  · exact fun _ => ensures_refuse hE operation
  · intro hstate
    refine (ensures_takeName hE operation).bind fun name => ?_
    have htag : Ensures (fun t => w.named? = some (name, t)) (put [type.tag])
        (fun _ t => ∃ w', w.named? = some (name, w') ∧ t = w'.append [type.tag]) E :=
      ensures_put fun t hnamed => ⟨t, hnamed, rfl⟩
    refine htag.bind fun _ => ?_
    apply ensures_put
    rintro t ⟨w', hnamed, rfl⟩
    refine ⟨hopen, Decidable.of_not_not hstate, name, w', hnamed, ?_⟩
    rw [append_append]
    rfl

/-- Opening a container fails, if at all, before anything is done. -/
theorem ensures_openContainer {kind : FrameKind}
    (hE : ∀ t, P t → ∀ depth max, E (.nestingTooDeep depth max) t)
    (hQ : ∀ t, P t → Q () { t.append [0, 0, 0, 0] with frames := ⟨kind, t.pending.size, 0⟩ :: t.frames }) :
    Ensures P (openContainer kind) Q E := by
  apply ensures_get_bind
  intro s hs
  apply ensures_check
  · intro _
    apply ensures_throw
    rintro t rfl
    exact hE t hs _ _
  · intro _
    have hput : Ensures (· = s) (put [0, 0, 0, 0]) (fun _ t => t = s.append [0, 0, 0, 0]) E := by
      apply ensures_put
      rintro t rfl
      rfl
    refine hput.bind fun _ => ?_
    apply ensures_modify
    rintro t rfl
    exact hQ s hs

/-- Closing a container fails, if there is one, only for its size. -/
theorem ensures_closeContainer
    (hE : ∀ t size, w.Closing t → 0 ≤ w.limits.maxDocumentSize → w.limits.maxDocumentSize < t.pending.size →
      E (.documentTooLarge size w.limits.maxDocumentSize) t) :
    Ensures (fun t => w.Closing t ∧ t.frames ≠ []) closeContainer
      (fun kind t => w.Closing t ∧ ∃ frame, kind = frame.kind ∧ frame :: t.frames <:+ w.frames) E := by
  apply ensures_get_bind
  rintro s ⟨⟨frames, pending, hsuffix, rfl⟩, hne⟩
  cases frames with
  | nil => exact absurd rfl hne
  | cons frame frames =>
      have hrest : frames <:+ w.frames := (List.suffix_cons frame frames).trans hsuffix
      dsimp only
      apply ensures_ite
      · rintro ⟨hpositive, hlarge⟩
        apply ensures_set_bind
        apply ensures_throw_bind
        rintro t rfl
        refine hE _ _ ⟨frames, pending, hrest, rfl⟩ hpositive ?_
        dsimp only
        omega
      · intro _
        apply ensures_set_bind
        apply ensures_pure
        rintro t rfl
        exact ⟨⟨frames, _, hrest, rfl⟩, frame, rfl, hsuffix⟩

/-- Handing over a document fails only if the sink may refuse bytes. -/
theorem ensures_endValue (hnested : ∀ t, P t → Nested t.frames)
    (hE : ∀ t, P t → t.frames = [] → t.sink.refusal ≠ none → ∀ sink message, E (.io message) { t with sink }) :
    Ensures P endValue (fun _ t => Nested t.frames ∧ t.state ≠ .scopeDocument) E := by
  apply ensures_get_bind
  intro s hs
  have hframes := hnested s hs
  cases hcases : s.frames with
  | cons frame frames =>
      apply ensures_modify
      rintro t rfl
      refine ⟨hframes, ?_⟩
      dsimp only
      split <;> decide
  | nil =>
      have hflush : Ensures (· = s) flush (fun _ t => t.frames = []) E := by
        apply ensures_get_bind
        rintro t rfl
        rcases hwrite : t.sink.write t.pending with ⟨message | _, sink⟩
        · apply ensures_set_bind
          apply ensures_throw
          rintro t' rfl
          refine hE t hs hcases ?_ sink message
          intro hnone
          rw [Sink.write, hnone] at hwrite
          cases hwrite
        · exact ensures_of_ok fun s' _ => ⟨⟨⟩, _, run_set _ _, hcases⟩
      refine hflush.bind fun _ => ?_
      apply ensures_modify
      intro t ht
      constructor
      · dsimp only
        rw [ht]
        trivial
      · dsimp only
        decide

theorem ensures_refuseNul {text : String} (hE : '\x00' ∈ text.toList → ∀ t, P t → E (.invalidName (shown text)) t) :
    Ensures P (refuseNul text) (fun _ t => P t ∧ '\x00' ∉ text.toList) E := by
  rw [refuseNul]
  by_cases h : '\x00' ∈ text.toList
  · rw [if_pos (List.contains_iff_mem.2 h)]
    exact ensures_throw (hE h)
  · rw [if_neg (by simpa using h)]
    exact ensures_pure fun t ht => ⟨ht, h⟩

/-- The rule for naming a value. -/
theorem ensures_writeName_of {name : String} (hE : ∀ e, E e w)
    (hQ : w.isClosed = false → w.state = .name → Q () { w with pendingName := some name, state := .value }) :
    Ensures (· = w) (writeName name) Q E := by
  apply ensures_open_get hE
  intro hopen
  apply ensures_check
  · exact fun _ => ensures_refuse hE _
  · intro hstate
    have hnul : Ensures (· = w) (refuseNul name) (fun _ t => t = w ∧ '\x00' ∉ name.toList) E := by
      apply ensures_refuseNul
      rintro _ t rfl
      exact hE _
    refine hnul.bind fun _ => ?_
    apply ensures_modify
    rintro t ⟨rfl, -⟩
    exact hQ hopen (Decidable.of_not_not hstate)

/-- The rule for entering a document, which may be entered at three places. -/
theorem ensures_startDocument_of (hE : ∀ e, E e w)
    (htop : w.isClosed = false → w.state = .initial ∨ w.state = .done → Ensures (· = w) (do
      openContainer .document
      modify fun w => { w with state := .name }) Q E)
    (hscope : w.isClosed = false → w.state = .scopeDocument → Ensures (· = w) (do
      openContainer .scopeDocument
      modify fun w => { w with state := .name }) Q E)
    (hvalue : Ensures (w.Begins .document) (do
      openContainer .document
      modify fun w => { w with state := .name }) Q E) :
    Ensures (· = w) startDocument Q E := by
  apply ensures_open_get hE
  intro hopen
  dsimp only
  split
  · next hstate => exact htop hopen (.inl hstate)
  · next hstate => exact htop hopen (.inr hstate)
  · next hstate => exact hscope hopen hstate
  · exact (ensures_beginValue hE _ _).bind fun _ => hvalue
  · exact (ensures_refuse hE _).bind fun _ _ (hs : False) => hs.elim

/-- The rule for closing a document. A scope document is closed with what is around it. -/
theorem ensures_endDocument_of (hE : ∀ e, E e w)
    (hclose : w.isClosed = false → w.frames.head?.map OpenFrame.kind = some .document ∨
      w.frames.head?.map OpenFrame.kind = some .scopeDocument → w.state = .name → Ensures (· = w) (do
        put [0]
        let closed ← closeContainer
        if closed = .scopeDocument then do
          discard closeContainer
          endValue
        else endValue) Q E) :
    Ensures (· = w) endDocument Q E := by
  apply ensures_open_get hE
  intro hopen
  have hstate {k : Unit → Write Unit} (hk : w.state = .name → Ensures (· = w) (k ()) Q E) :
      Ensures (· = w) (if w.state ≠ .name then throw (.prematureEnd "write_end_document" .nameWithoutValue) >>= k
        else k ()) Q E :=
    ensures_check (fun _ => ensures_throw_self hE _) fun hstate => hk (Decidable.of_not_not hstate)
  dsimp only
  split
  · next hkind => exact hstate (hclose hopen (.inl hkind))
  · next hkind => exact hstate (hclose hopen (.inr hkind))
  · exact (ensures_throw_self hE _).bind fun _ _ (hs : False) => hs.elim

/-- The rule for closing an array. -/
theorem ensures_endArray_of (hE : ∀ e, E e w)
    (hclose : w.isClosed = false → w.frames.head?.map OpenFrame.kind = some .array → Ensures (· = w) (do
      put [0]
      discard closeContainer
      endValue) Q E) :
    Ensures (· = w) endArray Q E := by
  apply ensures_open_get hE
  intro hopen
  apply ensures_check
  · exact fun _ => ensures_throw_self hE _
  · exact fun hkind => hclose hopen (Decidable.of_not_not hkind)

theorem ne_nil_of_kind {frames : List OpenFrame} {kind : FrameKind}
    (h : frames.head?.map OpenFrame.kind = some kind) : frames ≠ [] := by
  rintro rfl
  cases h

end

/-! ## Calls -/

section

variable {w : Writer} {c : Call}

/-- What has been begun is completed by bytes that can always be put down. -/
theorem ensures_writeScalar (h : w.Coherent) (operation : String) (type : ElementType) {payload : Write Unit}
    {bytes : List UInt8} (hp : Puts payload True bytes) :
    Ensures (· = w) (writeScalar operation type payload) (fun _ t => t.Coherent) (w.Leaves c) := by
  refine (ensures_beginValue (.same c) operation type).bind fun _ => ?_
  have hpayload : Ensures (w.Begins type) payload (fun _ t => Nested t.frames ∧ t.frames ≠ []) (w.Leaves c) := by
    apply ensures_of_ok
    intro t hbegins
    obtain ⟨hnested, hne, -⟩ := hbegins.nested h.nested
    exact ⟨(), _, (hp t).run_eq trivial, hnested, hne⟩
  refine hpayload.bind fun _ => ?_
  refine (ensures_endValue ?_ ?_).mono (fun _ ht => ht) fun _ t ht => coherent_of_ne ht.1 ht.2
  · exact fun t ht => ht.1
  · exact fun t ht hnone => absurd hnone ht.2

/-- The parts of a regular expression are looked at one after the other, and each after its element has been begun. -/
theorem ensures_writeRegularExpression (h : w.Coherent) (pattern options : String) :
    Ensures (· = w) (writeRegularExpression pattern options) (fun _ t => t.Coherent)
      (w.Leaves (.writeRegularExpression pattern options)) := by
  refine (ensures_beginValue (.same _) _ _).bind fun _ => ?_
  have hpattern : Ensures (w.Begins .regularExpression) (refuseNul pattern)
      (fun _ t => w.Begins .regularExpression t ∧ '\x00' ∉ pattern.toList)
      (w.Leaves (.writeRegularExpression pattern options)) :=
    ensures_refuseNul fun hnul _ hbegins => .tornPattern hbegins hnul
  have hput : Ensures (fun t => w.Begins .regularExpression t ∧ '\x00' ∉ pattern.toList) (putCstring pattern)
      (fun _ t => ∃ s, w.Begins .regularExpression s ∧ '\x00' ∉ pattern.toList ∧ t = s.append (cstring pattern))
      (w.Leaves (.writeRegularExpression pattern options)) :=
    ensures_put fun t ht => ⟨t, ht.1, ht.2, rfl⟩
  have hoptions : Ensures
      (fun t => ∃ s, w.Begins .regularExpression s ∧ '\x00' ∉ pattern.toList ∧ t = s.append (cstring pattern))
      (do refuseNul options; putCstring options) (fun _ t => Nested t.frames ∧ t.frames ≠ [])
      (w.Leaves (.writeRegularExpression pattern options)) := by
    refine (ensures_refuseNul fun hnul t ht => ?_).bind fun _ => ?_
    · obtain ⟨s, hbegins, hpattern, rfl⟩ := ht
      exact .tornOptions hbegins hpattern hnul
    · apply ensures_put
      rintro t ⟨⟨s, hbegins, -, rfl⟩, -⟩
      obtain ⟨hnested, hne, -⟩ := hbegins.nested h.nested
      exact ⟨hnested, hne⟩
  have hpayload := hpattern.bind fun _ => hput.bind fun _ => hoptions
  refine hpayload.bind fun _ => ?_
  refine (ensures_endValue ?_ ?_).mono (fun _ ht => ht) fun _ t ht => coherent_of_ne ht.1 ht.2
  · exact fun t ht => ht.1
  · exact fun t ht hnone => absurd hnone ht.2

/-- Entering a container, from wherever it may be entered. -/
theorem ensures_enter {P : Writer → Prop} {kind : FrameKind} {state : WriterState} (hstate : state ≠ .scopeDocument)
    (hE : ∀ t, P t → ∀ depth max, w.Leaves c (.nestingTooDeep depth max) t)
    (hnested : ∀ t, P t → Nested t.frames ∧ (kind = .scopeDocument → t.frames ≠ [])) :
    Ensures P (do
      openContainer kind
      modify fun w => { w with state }) (fun _ t => t.Coherent) (w.Leaves c) := by
  have hopen : Ensures P (openContainer kind) (fun _ t => Nested t.frames) (w.Leaves c) := by
    apply ensures_openContainer hE
    intro t ht
    exact ⟨(hnested t ht).2, (hnested t ht).1⟩
  refine hopen.bind fun _ => ?_
  apply ensures_modify
  intro t ht
  exact coherent_of_ne ht hstate

theorem ensures_enter_begun (h : w.Coherent) {type : ElementType} {kind : FrameKind} {state : WriterState}
    (hkind : kind ≠ .scopeDocument) (hstate : state ≠ .scopeDocument) :
    Ensures (w.Begins type) (do
      openContainer kind
      modify fun w => { w with state }) (fun _ t => t.Coherent) (w.Leaves c) := by
  apply ensures_enter hstate
  · exact fun t hbegins depth max => .tooDeep hbegins
  · exact fun t hbegins => ⟨(hbegins.nested h.nested).1, fun heq => absurd heq hkind⟩

theorem ensures_startDocument (h : w.Coherent) :
    Ensures (· = w) startDocument (fun _ t => t.Coherent) (w.Leaves .startDocument) := by
  have htop {kind : FrameKind} (hkind : kind = .scopeDocument → w.frames ≠ []) :
      Ensures (· = w) (do
        openContainer kind
        modify fun w => { w with state := .name }) (fun _ t => t.Coherent) (w.Leaves .startDocument) := by
    apply ensures_enter (by decide)
    · rintro t rfl _ _
      exact .same _ _
    · rintro t rfl
      exact ⟨h.nested, hkind⟩
  apply ensures_startDocument_of (.same _)
  · exact fun _ _ => htop nofun
  · exact fun _ hstate => htop fun _ => ne_nil_of_kind (h.scope hstate)
  · exact ensures_enter_begun h nofun nofun

theorem ensures_startArray (h : w.Coherent) :
    Ensures (· = w) startArray (fun _ t => t.Coherent) (w.Leaves .startArray) :=
  (ensures_beginValue (.same _) _ _).bind fun _ => ensures_enter_begun h nofun nofun

theorem ensures_writeScopedCode (h : w.Coherent) (code : String) :
    Ensures (· = w) (writeScopedCode code) (fun _ t => t.Coherent) (w.Leaves (.writeScopedCode code)) := by
  refine (ensures_beginValue (.same _) _ _).bind fun _ => ?_
  have hopen : Ensures (w.Begins .scopedCode) (openContainer .scopedCode)
      (fun _ t => Nested t.frames ∧ t.frames.head?.map OpenFrame.kind = some .scopedCode)
      (w.Leaves (.writeScopedCode code)) := by
    apply ensures_openContainer
    · exact fun t hbegins depth max => .tooDeep hbegins
    · exact fun t hbegins => ⟨⟨nofun, (hbegins.nested h.nested).1⟩, rfl⟩
  have hput : Ensures (fun t => Nested t.frames ∧ t.frames.head?.map OpenFrame.kind = some .scopedCode)
      (putString code) (fun _ t => Nested t.frames ∧ t.frames.head?.map OpenFrame.kind = some .scopedCode)
      (w.Leaves (.writeScopedCode code)) := ensures_put fun t ht => ht
  refine hopen.bind fun _ => hput.bind fun _ => ?_
  apply ensures_modify
  intro t ht
  exact ⟨ht.1, fun _ => ht.2⟩

/-- Going on after containers that have been closed. -/
theorem ensures_finish (h : w.Coherent) (hstate : w.state ≠ .scopeDocument) :
    Ensures w.Closing endValue (fun _ t => t.Coherent) (w.Leaves c) := by
  refine (ensures_endValue ?_ ?_).mono (fun _ ht => ht) fun _ t ht => coherent_of_ne ht.1 ht.2
  · rintro t ⟨frames, pending, hsuffix, rfl⟩
    exact nested_of_suffix hsuffix h.nested
  · intro t ht _ hrefusal sink message
    refine .untaken ht hstate ?_
    obtain ⟨frames, pending, -, rfl⟩ := ht
    exact hrefusal

/-- A container that turns out too large has been left. -/
theorem ensures_close (hstate : w.state ≠ .scopeDocument) (hframes : w.frames ≠ []) :
    Ensures (fun t => w.Closing t ∧ t.frames ≠ []) closeContainer
      (fun kind t => w.Closing t ∧ ∃ frame, kind = frame.kind ∧ frame :: t.frames <:+ w.frames) (w.Leaves c) :=
  ensures_closeContainer fun _ _ ht => .tooLarge ht hstate hframes

theorem ensures_discard_close (hstate : w.state ≠ .scopeDocument) (hframes : w.frames ≠ []) :
    Ensures (fun t => w.Closing t ∧ t.frames ≠ []) (discard closeContainer) (fun _ t => w.Closing t)
      (w.Leaves c) := by
  rw [discard_eq_bind]
  exact (ensures_close hstate hframes).bind fun _ => ensures_pure fun t ht => ht.1

theorem ensures_terminate (hframes : w.frames ≠ []) :
    Ensures (· = w) (put [0]) (fun _ t => w.Closing t ∧ t.frames ≠ []) (w.Leaves c) := by
  apply ensures_put
  rintro t rfl
  exact ⟨closing_append _ _, hframes⟩

theorem ensures_endDocument (h : w.Coherent) :
    Ensures (· = w) endDocument (fun _ t => t.Coherent) (w.Leaves .endDocument) := by
  apply ensures_endDocument_of (.same _)
  intro _ hkind hname
  have hframes : w.frames ≠ [] := hkind.elim ne_nil_of_kind ne_nil_of_kind
  have hstate : w.state ≠ .scopeDocument := by
    rw [hname]
    nofun
  refine (ensures_terminate hframes).bind fun _ => (ensures_close hstate hframes).bind fun kind => ?_
  apply ensures_ite
  · rintro rfl
    have haround := (ensures_discard_close (c := .endDocument) hstate hframes).bind fun _ => ensures_finish h hstate
    refine haround.mono ?_ fun _ _ ht => ht
    rintro t ⟨hclosing, frame, hscope, hsuffix⟩
    exact ⟨hclosing, (nested_of_suffix hsuffix h.nested).1 hscope.symm⟩
  · intro _
    exact (ensures_finish h hstate).mono (fun t ht => ht.1) fun _ _ ht => ht

theorem ensures_endArray (h : w.Coherent) :
    Ensures (· = w) endArray (fun _ t => t.Coherent) (w.Leaves .endArray) := by
  apply ensures_endArray_of (.same _)
  intro _ hkind
  have hframes : w.frames ≠ [] := ne_nil_of_kind hkind
  have hstate : w.state ≠ .scopeDocument := by
    intro hscope
    rw [h.scope hscope] at hkind
    cases hkind
  exact (ensures_terminate hframes).bind fun _ => (ensures_discard_close hstate hframes).bind fun _ =>
    ensures_finish h hstate

/-- Whatever a call does, a scope document keeps something around it; and when it fails, it leaves behind what it
may leave behind. -/
theorem Coherent.ensures_write (h : w.Coherent) (c : Call) :
    Ensures (· = w) c.write (fun _ t => t.Coherent) (w.Leaves c) := by
  cases c with
  | writeName name => exact ensures_writeName_of (.same _) fun _ _ => coherent_of_ne h.nested nofun
  | startDocument => exact ensures_startDocument h
  | endDocument => exact ensures_endDocument h
  | startArray => exact ensures_startArray h
  | endArray => exact ensures_endArray h
  | writeBinary subtype bytes => exact ensures_writeScalar h _ _ (puts_putBinary subtype bytes)
  | writeUndefined | writeNull | writeMinKey | writeMaxKey => exact ensures_writeScalar h _ _ puts_pure
  | writeRegularExpression pattern options => exact ensures_writeRegularExpression h pattern options
  | writeDbPointer collection id => exact ensures_writeScalar h _ _ (puts_dbPointer collection id)
  | writeScopedCode code => exact ensures_writeScopedCode h code
  | _ => exact ensures_writeScalar h _ _ (puts_put _)

theorem Coherent.leaves_of_error (h : w.Coherent) {t : Writer} {e : WireError}
    (hrun : c.write.run.run w = (.error e, t)) : w.Leaves c e t :=
  (h.ensures_write c w rfl).2 e t hrun

theorem Coherent.call (h : w.Coherent) (c : Call) : (c.write.run.run w).2.Coherent := by
  rcases hrun : c.write.run.run w with ⟨e | _, t⟩
  · exact h.leaves (h.leaves_of_error hrun)
  · exact (h.ensures_write c w rfl).1 () t hrun

theorem Coherent.operate (h : w.Coherent) (operation : Operation) : (w.operate operation).Coherent := by
  cases operation with
  | call c => exact h.call c
  | close => exact ⟨trivial, nofun⟩
  | release => exact ⟨h.nested, nofun⟩

theorem coherent_after (sink : Sink) (limits : Limits) (operations : List Operation) :
    ((ofSink sink limits).after operations).Coherent := by
  have hfold : ∀ w : Writer, w.Coherent → (w.after operations).Coherent := by
    induction operations with
    | nil => exact fun w h => h
    | cons operation later ih => exact fun w h => ih _ (h.operate operation)
  exact hfold _ ⟨trivial, nofun⟩

end

/-- An error of usage leaves a writer as it was, and what is done later is not changed by it; but for a regular
expression of which a part holds a NUL: its element has been begun by then, and its name has been taken. -/
theorem eq_of_not_isFatal (sink : Sink) (limits : Limits) (operations : List Operation) (c : Call) {w t : Writer}
    {e : WireError} (hw : w = (ofSink sink limits).after operations) (hrun : c.write.run.run w = (.error e, t))
    (hfatal : e.isFatal = false) :
    (t = w ∧ ∀ later,
        (ofSink sink limits).after (operations ++ .call c :: later) = (ofSink sink limits).after (operations ++ later)) ∨
      ∃ pattern options s, c = .writeRegularExpression pattern options ∧ w.Begins .regularExpression s ∧
        ('\x00' ∈ pattern.toList ∧ e = .invalidName (shown pattern) ∧ t = s ∨
          '\x00' ∉ pattern.toList ∧ '\x00' ∈ options.toList ∧ e = .invalidName (shown options) ∧
            t = s.append (cstring pattern)) := by
  have hcoherent : w.Coherent := hw ▸ coherent_after sink limits operations
  have hstep : w.operate (.call c) = t := congrArg Prod.snd hrun
  cases hcoherent.leaves_of_error hrun with
  | same =>
      refine .inl ⟨rfl, fun later => ?_⟩
      rw [after_append, after_append, after_cons, ← hw, hstep]
  | tornPattern hbegins hnul => exact .inr ⟨_, _, t, rfl, hbegins, .inl ⟨hnul, rfl, rfl⟩⟩
  | tornOptions hbegins hpattern hnul => exact .inr ⟨_, _, _, rfl, hbegins, .inr ⟨hpattern, hnul, rfl, rfl⟩⟩
  | tooDeep => cases hfatal
  | tooLarge => cases hfatal
  | untaken => cases hfatal

/-- A name where an item of an array is expected. -/
theorem eq_of_not_isFatal_nameInArray :
    ∃ w : Writer, w = (ofSink default).after [.call .startDocument, .call (.writeName "a"), .call .startArray] ∧
      (Call.writeName "b").write.run.run w = (.error (.invalidState "write_name" "Value"), w) ∧
      ∀ later, (ofSink default).after
          ([.call .startDocument, .call (.writeName "a"), .call .startArray] ++ .call (.writeName "b") :: later) =
        (ofSink default).after ([.call .startDocument, .call (.writeName "a"), .call .startArray] ++ later) := by
  have hrun : (Call.writeName "b").write.run.run
      ((ofSink default).after [.call .startDocument, .call (.writeName "a"), .call .startArray]) =
        (.error (.invalidState "write_name" "Value"),
          (ofSink default).after [.call .startDocument, .call (.writeName "a"), .call .startArray]) := rfl
  refine ⟨_, rfl, hrun, ?_⟩
  obtain ⟨-, hlater⟩ | ⟨pattern, options, s, hcall, -⟩ := eq_of_not_isFatal default {} _ _ rfl hrun rfl
  · exact hlater
  · cases hcall

/-- The pattern is refused, the name is gone, and the same call with another pattern is refused for want of it. -/
theorem regularExpression_takes_name :
    ∃ w t, w = (ofSink default).after [.call .startDocument, .call (.writeName "r")] ∧
      (Call.writeRegularExpression "a\x00b" "").write.run.run w = (.error (.invalidName "a\\0b"), t) ∧
      (WireError.invalidName "a\\0b").isFatal = false ∧
      (w.pendingName = some "r" ∧ t.pendingName = none) ∧ (w.position = 4 ∧ t.position = 7) ∧
      (((Call.writeRegularExpression "ab" "").write.run.run w).1.isOk = true ∧
        ((Call.writeRegularExpression "ab" "").write.run.run t).1.isOk = false) := by
  refine ⟨_, _, rfl, Prod.ext ?_ rfl, rfl, by decide +kernel, by decide +kernel, by decide +kernel⟩
  rfl

end Aggregation.Wire.Writer
