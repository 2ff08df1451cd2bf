import Aggregation.Proofs.Wire.Calls

/-! Documents that are being put together. A draft has a level for each open container, with the values that have been
completed in it; its bytes are what a writer has pending, with zeros where lengths will stand. A call that succeeds
does to the draft what it says: it names the next value, adds one, opens a level or closes one. -/

namespace Aggregation.Wire

open Stepping Layout

/-- What has been completed of a container that is open. -/
inductive Level where
  /-- The elements of a document, and the name that has been written last. -/
  | fields (done : List (String × Value)) (name : String)
  | items (done : List Value)
  /-- Code with a scope, of which the scope is not complete. -/
  | code (code : String)

namespace Level

/-- Whether values can be put here. -/
def TakesValues : Level → Prop
  | code _ => False
  | _ => True

/-- The name under which the next value comes. -/
def label : Level → String
  | fields _ name => name
  | items done => toString done.length
  | code _ => ""

/-- The level with one more value. -/
def add : Level → Value → Level
  | fields done name, v => fields (done ++ [(name, v)]) name
  | items done, v => items (done ++ [v])
  | code c, _ => code c

def type : Level → ElementType
  | fields _ _ => .document
  | items _ => .array
  | code _ => .scopedCode

/-- The bytes of what has been completed. -/
def content : Level → List UInt8
  | fields done _ => elements done
  | items done => Layout.items 0 done
  | code c => text c

/-- Whether a writer with a number of open containers takes what has been completed. -/
def Admitted (l : Limits) (opened : Nat) : Level → Prop
  | fields done name => AdmitsElements l opened done ∧ '\x00' ∉ name.toList
  | items done => AdmitsItems l opened done
  | code _ => True

/-- The kind of a container from what it lies in. -/
def kind : Level → List Level → FrameKind
  | fields _ _, code _ :: _ => .scopeDocument
  | fields _ _, _ => .document
  | items _, _ => .array
  | code _, _ => .scopedCode

/-- The index of the next item of an array, of which `begun` counts for those that have been begun. -/
def index (begun : Nat) : Level → Nat
  | items done => done.length + begun
  | _ => 0

/-- What stands before the length of a container: nothing at the top and after code, and else the head of an element. -/
def lead (level : Level) : List Level → List UInt8
  | [] => []
  | code _ :: _ => []
  | outer :: _ => head level.type (Utf8.encode outer.label)

/-- Whether a container may lie in others: only a document lies at the top or after code. -/
def Fits : Level → List Level → Prop
  | fields _ _, _ => True
  | _, [] => False
  | _, outer :: _ => outer.TakesValues

end Level

/-- Drafts, the innermost container first. -/
abbrev Draft := List Level

namespace Draft

open Level

/-- The bytes of a draft, with zeros for the lengths. -/
def bytes : Draft → List UInt8
  | [] => []
  | level :: outer => bytes outer ++ level.lead outer ++ [0, 0, 0, 0] ++ level.content

/-- The container of a level. -/
def frame (begun : Nat) (level : Level) (outer : Draft) : OpenFrame where
  kind := level.kind outer
  start := (bytes outer ++ level.lead outer).length
  index := level.index begun

/-- The containers of a draft. In every one but the innermost, a value has been begun. -/
def frames (begun : Nat) : Draft → List OpenFrame
  | [] => []
  | level :: outer => frame begun level outer :: frames 1 outer

/-- Whether a writer takes the draft, and may take more. -/
def Admitted (l : Limits) : Draft → Prop
  | [] => True
  | level :: outer =>
    outer.length < l.maxNestingDepth ∧ level.Fits outer ∧ level.Admitted l (outer.length + 1) ∧ Admitted l outer

/-- What a writer expects next: in a document a name, or the value for the name that it has. -/
def Expects : Draft → WriterState → Option String → Prop
  | [], state, name => (state = .initial ∨ state = .done) ∧ name = none
  | .fields _ written :: _, state, name => state = .name ∧ name = none ∨ state = .value ∧ name = some written
  | .items _ :: _, state, name => state = .value ∧ name = none
  | .code _ :: _, state, name => state = .scopeDocument ∧ name = none

@[simp] theorem length_frames (begun : Nat) (d : Draft) : (frames begun d).length = d.length := by
  induction d generalizing begun with
  | nil => rfl
  | cons level outer ih => rw [frames, List.length_cons, List.length_cons, ih]

end Draft

namespace Layout

variable {l : Limits} {opened : Nat}

theorem elements_append (done : List (String × Value)) (name : String) (v : Value) :
    elements (done ++ [(name, v)]) = elements done ++ (head v.elementType (Utf8.encode name) ++ value v) := by
  induction done with
  | nil => simp [elements]
  | cons first done ih =>
      obtain ⟨name', v'⟩ := first
      simp only [List.cons_append, elements, ih, List.append_assoc]

theorem items_append (index : Nat) (done : List Value) (v : Value) :
    items index (done ++ [v]) =
      items index done ++ (head v.elementType (Utf8.encode (toString (index + done.length))) ++ value v) := by
  induction done generalizing index with
  | nil => simp [items]
  | cons first done ih =>
      simp only [List.cons_append, items, ih, List.append_assoc, List.length_cons]
      rw [Nat.add_comm done.length, Nat.add_assoc]

theorem admitsElements_append {done : List (String × Value)} {name : String} {v : Value}
    (hdone : AdmitsElements l opened done) (hname : '\x00' ∉ name.toList) (hv : Admits l opened v) :
    AdmitsElements l opened (done ++ [(name, v)]) := by
  induction done with
  | nil => exact ⟨hname, hv, trivial⟩
  | cons first done ih => exact ⟨hdone.1, hdone.2.1, ih hdone.2.2⟩

theorem admitsItems_append {done : List Value} {v : Value} (hdone : AdmitsItems l opened done)
    (hv : Admits l opened v) : AdmitsItems l opened (done ++ [v]) := by
  induction done with
  | nil => exact ⟨hv, trivial⟩
  | cons first done ih => exact ⟨hdone.1, ih hdone.2⟩

end Layout

namespace Level

variable {level : Level} {outer : Draft} {l : Limits} {opened : Nat}

theorem content_add (h : level.TakesValues) (v : Value) :
    (level.add v).content = level.content ++ (head v.elementType (Utf8.encode level.label) ++ value v) := by
  cases level with
  | fields done name => exact elements_append done name v
  | items done =>
      have happend := items_append 0 done v
      rwa [Nat.zero_add] at happend
  | code c => exact h.elim

theorem Admitted.add {v : Value} (h : level.Admitted l opened) (hv : Admits l opened v) :
    (level.add v).Admitted l opened := by
  cases level with
  | fields done name => exact ⟨admitsElements_append h.1 h.2 hv, h.2⟩
  | items done => exact admitsItems_append h hv
  | code c => trivial

theorem Fits.add (h : level.Fits outer) (v : Value) : (level.add v).Fits outer := by
  cases level with
  | fields done name => trivial
  | items done => cases outer <;> exact h
  | code c => exact h

theorem kind_add (v : Value) : (level.add v).kind outer = level.kind outer := by
  cases level with
  | fields done name =>
      cases outer with
      | nil => rfl
      | cons around outer => cases around <;> rfl
  | items done => rfl
  | code c => rfl

theorem lead_add (v : Value) : (level.add v).lead outer = level.lead outer := by
  cases outer with
  | nil => rfl
  | cons around outer => cases level <;> cases around <;> rfl

theorem lead_of_takesValues {inner : Level} (h : level.TakesValues) :
    inner.lead (level :: outer) = head inner.type (Utf8.encode level.label) := by
  cases level with
  | code c => exact h.elim
  | fields done name => rfl
  | items done => rfl

/-- What has been begun in a level has been added to it. -/
theorem frame_add (h : level.TakesValues) (v : Value) :
    Draft.frame 0 (level.add v) outer = Draft.frame 1 level outer := by
  have hindex : (level.add v).index 0 = level.index 1 := by
    cases level with
    | fields done name => rfl
    | items done => exact List.length_append
    | code c => exact h.elim
  rw [Draft.frame, Draft.frame, kind_add, lead_add, hindex]

end Level

namespace Writer

open Write

/-- The value that a call writes, if it is no container. -/
def Call.scalar? : Call → Option Value
  | writeName _ | startDocument | endDocument | startArray | endArray | writeScopedCode _ => none
  | writeDouble x => some (.double x)
  | writeString s => some (.string s)
  | writeBinary subtype bytes => some (.binary subtype bytes)
  | writeUndefined => some .undefined
  | writeObjectId id => some (.objectId id)
  | writeBoolean b => some (.boolean b)
  | writeDateTime millis => some (.dateTime millis)
  | writeNull => some .null
  | writeRegularExpression pattern options => some (.regularExpression pattern options)
  | writeDbPointer collection id => some (.dbPointer collection id)
  | writeJavaScript code => some (.javaScript code)
  | writeSymbol name => some (.symbol name)
  | writeInt32 n => some (.int32 n)
  | writeTimestamp time increment => some (.timestamp time increment)
  | writeInt64 n => some (.int64 n)
  | writeDecimal128 d => some (.decimal128 d)
  | writeMinKey => some .minKey
  | writeMaxKey => some .maxKey

/-- What a call that succeeds does to the documents that have been handed over and to the draft. -/
inductive Takes : List Document → Draft → Call → List Document → Draft → Prop
  | name {ds done written outer} (name : String) :
      Takes ds (.fields done written :: outer) (.writeName name) ds (.fields done name :: outer)
  | top {ds} : Takes ds [] .startDocument ds [.fields [] ""]
  | scope {ds c outer} : Takes ds (.code c :: outer) .startDocument ds (.fields [] "" :: .code c :: outer)
  | document {ds} {level : Level} {outer} (h : level.TakesValues) :
      Takes ds (level :: outer) .startDocument ds (.fields [] "" :: level :: outer)
  | array {ds} {level : Level} {outer} (h : level.TakesValues) :
      Takes ds (level :: outer) .startArray ds (.items [] :: level :: outer)
  | code {ds} {level : Level} {outer} (h : level.TakesValues) (c : String) :
      Takes ds (level :: outer) (.writeScopedCode c) ds (.code c :: level :: outer)
  | scalar {ds} {level : Level} {outer c v} (h : level.TakesValues) (hc : c.scalar? = some v) :
      Takes ds (level :: outer) c ds (level.add v :: outer)
  | endTop {ds done written} : Takes ds [.fields done written] .endDocument (ds ++ [⟨done⟩]) []
  | endDocument {ds done written} {level : Level} {outer} (h : level.TakesValues) :
      Takes ds (.fields done written :: level :: outer) .endDocument ds (level.add (.document ⟨done⟩) :: outer)
  | endScope {ds done written c} {level : Level} {outer} (h : level.TakesValues) :
      Takes ds (.fields done written :: .code c :: level :: outer) .endDocument ds
        (level.add (.scopedCode c ⟨done⟩) :: outer)
  | endArray {ds done} {level : Level} {outer} (h : level.TakesValues) :
      Takes ds (.items done :: level :: outer) .endArray ds (level.add (.array done) :: outer)

/-- A writer over a sink that takes everything, and that has handed over certain documents. -/
structure Handed (l : Limits) (start : List UInt8) (ds : List Document) (w : Writer) : Prop where
  held : w.isReleased = false
  limits_eq : w.limits = l
  refusal_eq : w.sink.refusal = none
  received_eq : w.sink.received.toList = start ++ ds.flatMap document
  flushed_eq : w.flushed = (ds.flatMap document).length
  admitted : ∀ d ∈ ds, Admits w.limits 0 (.document d)

/-- A writer that puts a draft together. -/
structure Drafting (l : Limits) (start : List UInt8) (ds : List Document) (draft : Draft) (w : Writer) : Prop where
  handed : Handed l start ds w
  pending_eq : w.pending = #[].appendList draft.bytes
  frames_eq : w.frames = draft.frames 0
  expects : draft.Expects w.state w.pendingName
  admitted : draft.Admitted w.limits

section

variable {l : Limits} {start : List UInt8} {ds : List Document} {draft outer : Draft} {level : Level}
  {w w' t : Writer}

theorem Handed.of_eq (h : w.Handed l start ds)
    (heq : w'.isReleased = w.isReleased ∧ w'.sink = w.sink ∧ w'.flushed = w.flushed ∧ w'.limits = w.limits) :
    w'.Handed l start ds := by
  obtain ⟨hheld, hsink, hflushed, hlimits⟩ := heq
  refine ⟨hheld.trans h.held, hlimits.trans h.limits_eq, ?_, ?_, hflushed.trans h.flushed_eq, ?_⟩
  · rw [hsink, h.refusal_eq]
  · rw [hsink, h.received_eq]
  · rw [hlimits]
    exact h.admitted

theorem drafting_ofSink {sink : Sink} (hsink : sink.refusal = none) (limits : Limits) :
    Drafting limits sink.received.toList [] [] (ofSink sink limits) where
  handed := ⟨rfl, rfl, hsink, by simp [ofSink], rfl, by simp⟩
  pending_eq := rfl
  frames_eq := rfl
  expects := ⟨.inl rfl, rfl⟩
  admitted := trivial

/-- Where a value may be written, there is a level that takes it, and its name is known. -/
theorem Drafting.exists_ready (h : w.Drafting l start ds draft) (hstate : w.state = .value) :
    ∃ level outer, draft = level :: outer ∧ level.TakesValues ∧
      w.Ready level.label (Draft.frame 1 level outer) (Draft.frames 1 outer) := by
  have hexpects := h.expects
  have hframes := h.frames_eq
  rw [hstate] at hexpects
  match draft with
  | [] => exact absurd hexpects.1 (by simp)
  | .fields done name :: outer =>
      obtain ⟨habsurd, -⟩ | ⟨-, hname⟩ := hexpects
      · cases habsurd
      · refine ⟨_, outer, rfl, trivial, h.handed.held, hstate, .inr ⟨hframes, ?_, hname⟩⟩
        cases outer with
        | nil => nofun
        | cons around outer => cases around <;> nofun
  | .items done :: outer =>
      exact ⟨_, outer, rfl, trivial, h.handed.held, hstate, .inl ⟨_, hframes, rfl, hexpects.2, rfl, rfl⟩⟩
  | .code c :: outer => cases hexpects.1

/-- A value that has been completed has been added to its level. -/
theorem drafting_added (hhanded : w.Handed l start ds) (hlevel : level.TakesValues) {v : Value}
    (hpending : w.pending = #[].appendList (Draft.bytes (level :: outer) ++
      (head v.elementType (Utf8.encode level.label) ++ value v)))
    (hframes : w.frames = Draft.frame 1 level outer :: Draft.frames 1 outer)
    (hstate : w.state = afterValue (Draft.frame 1 level outer)) (hname : w.pendingName = none)
    (hadmitted : Draft.Admitted w.limits (level :: outer)) (hv : Admits w.limits (outer.length + 1) v) :
    w.Drafting l start ds (level.add v :: outer) := by
  obtain ⟨hdepth, hfits, hdone, houter⟩ := hadmitted
  refine ⟨hhanded, ?_, ?_, ?_, hdepth, hfits.add v, hdone.add hv, houter⟩
  · rw [hpending, Draft.bytes, Draft.bytes, Level.lead_add, Level.content_add hlevel]
    simp only [List.append_assoc]
  · rw [hframes, Draft.frames, Level.frame_add hlevel]
  · rw [hstate, hname]
    cases level with
    | fields done name =>
        refine .inl ⟨if_neg ?_, rfl⟩
        cases outer with
        | nil => nofun
        | cons around outer => cases around <;> nofun
    | items done => exact ⟨if_pos rfl, rfl⟩
    | code c => exact hlevel.elim

/-- A container that is closed is a value that has been completed. -/
theorem drafting_closed (hhanded : w.Handed l start ds) (hlevel : level.TakesValues) (hname : w.pendingName = none)
    (hadmitted : Draft.Admitted w.limits (level :: outer)) {v : Value} (hv : Admits w.limits (outer.length + 1) v) :
    Drafting l start ds (level.add v :: outer)
      { w with
        state := afterValue (Draft.frame 1 level outer), frames := Draft.frames 1 (level :: outer)
        pending := (#[].appendList
          (Draft.bytes (level :: outer) ++ head v.elementType (Utf8.encode level.label))).appendList (value v) } := by
  refine drafting_added ?_ hlevel ?_ rfl rfl hname hadmitted hv
  · exact hhanded.of_eq ⟨rfl, rfl, rfl, rfl⟩
  · rw [appendList_appendList, List.append_assoc]

theorem ensures_const {α : Type} {x : Write α} {p : Prop} {P : Writer → Prop} (hp : p) :
    Ensures P x (fun _ _ => p) (fun _ _ => True) := fun _ _ => ⟨fun _ _ _ => hp, fun _ _ _ => trivial⟩

theorem state_of_writeName {name : String} (hrun : (writeName name).run.run w = (.ok (), t)) : w.state = .name :=
  (ensures_writeName_of (Q := fun _ _ => w.state = .name) (E := fun _ _ => True) (fun _ => trivial)
    (fun _ hstate => hstate) w rfl).1 () t hrun

/-- A value is begun only where one is expected. -/
theorem state_of_beginValue {operation : String} {type : ElementType} {f : Unit → Write Unit}
    (hrun : (beginValue operation type >>= f).run.run w = (.ok (), t)) : w.state = .value := by
  obtain ⟨_, s, hbegin, -⟩ := exists_of_run_bind hrun
  have hbegins := (ensures_beginValue (E := fun _ _ => True) (fun _ => trivial) operation type w rfl).1 _ s hbegin
  exact hbegins.state_eq

theorem state_of_startDocument (hrun : startDocument.run.run w = (.ok (), t)) : w.state ≠ .name := by
  intro hname
  refine (ensures_startDocument_of (Q := fun _ _ => False) (E := fun _ _ => True) (fun _ => trivial) ?_ ?_ ?_ w rfl).1
    () t hrun
  · intro _ hstart
    rw [hname] at hstart
    rcases hstart with hstart | hstart <;> cases hstart
  · intro _ hscope
    rw [hname] at hscope
    cases hscope
  · intro s hbegins
    have hvalue := hbegins.state_eq
    rw [hname] at hvalue
    cases hvalue

/-- An array is closed only if it is the innermost container. -/
theorem kind_of_endArray (hrun : endArray.run.run w = (.ok (), t)) :
    w.frames.head?.map OpenFrame.kind = some .array :=
  (ensures_endArray_of (fun _ => trivial) (fun _ hkind => ensures_const hkind) w rfl).1 () t hrun

/-- A document is closed only if it is the innermost container and no name waits for its value. -/
theorem state_of_endDocument (hrun : endDocument.run.run w = (.ok (), t)) :
    (w.frames.head?.map OpenFrame.kind = some .document ∨ w.frames.head?.map OpenFrame.kind = some .scopeDocument) ∧
      w.state = .name :=
  (ensures_endDocument_of (fun _ => trivial) (fun _ hkind hname => ensures_const ⟨hkind, hname⟩) w rfl).1 () t hrun

theorem Drafting.scalar (h : w.Drafting l start ds draft) {c : Call} {v : Value} (hc : c.scalar? = some v)
    (hrun : c.write.run.run w = (.ok (), t)) :
    ∃ draft', Takes ds draft c ds draft' ∧ t.Drafting l start ds draft' := by
  have hwrite : ∃ operation payload,
      c.write = writeScalar operation v.elementType payload ∧ c.write = writeValue v := by
    cases c <;> cases hc <;> exact ⟨_, _, rfl, by rw [writeValue]; rfl⟩
  obtain ⟨operation, payload, hscalar, hvalue⟩ := hwrite
  have hstate : w.state = .value := by
    rw [hscalar] at hrun
    exact state_of_beginValue hrun
  obtain ⟨level, outer, rfl, hlevel, hready⟩ := h.exists_ready hstate
  rw [hvalue] at hrun
  obtain ⟨hv, -, rfl⟩ := (writeValue_decides hready v).of_run hrun
  rw [Draft.length_frames] at hv
  refine ⟨_, .scalar hlevel hc, drafting_added ?_ hlevel ?_ rfl rfl rfl h.admitted hv⟩
  · exact h.handed.of_eq ⟨rfl, rfl, rfl, rfl⟩
  · simp only [wrote, h.pending_eq, appendList_appendList]

theorem Drafting.name (h : w.Drafting l start ds draft) {name : String}
    (hrun : (writeName name).run.run w = (.ok (), t)) :
    ∃ draft', Takes ds draft (.writeName name) ds draft' ∧ t.Drafting l start ds draft' := by
  have hstate : w.state = .name := state_of_writeName hrun
  obtain ⟨hnul, -, rfl⟩ := (writeName_decides h.handed.held hstate name).of_run hrun
  have hexpects := h.expects
  have hadmitted := h.admitted
  rw [hstate] at hexpects
  match draft with
  | [] => exact absurd hexpects.1 (by simp)
  | .fields done written :: outer =>
      obtain ⟨hdepth, hfits, hdone, houter⟩ := hadmitted
      refine ⟨_, .name name, h.handed.of_eq ⟨rfl, rfl, rfl, rfl⟩, ?_, ?_, .inr ⟨rfl, rfl⟩, hdepth, hfits,
        ⟨hdone.1, hnul⟩, houter⟩
      · have hpending := h.pending_eq
        cases outer with
        | nil => exact hpending
        | cons around outer => cases around <;> exact hpending
      · have hframes := h.frames_eq
        cases outer with
        | nil => exact hframes
        | cons around outer => cases around <;> exact hframes
  | .items done :: outer => cases hexpects.1
  | .code c :: outer => cases hexpects.1

theorem Drafting.size_append (h : w.Drafting l start ds draft) (bytes : List UInt8) :
    (w.append bytes).pending.size = (draft.bytes ++ bytes).length := by
  rw [append, h.pending_eq, appendList_appendList]
  simp

/-- A container has been opened as the next value of a level. -/
theorem Drafting.opened (h : w.Drafting l start ds (level :: outer)) (hlevel : level.TakesValues) (inner : Level)
    (hdepth : outer.length + 1 < w.limits.maxNestingDepth) (hfits : inner.Fits (level :: outer))
    (hinner : inner.Admitted w.limits (outer.length + 2)) (hindex : inner.index 0 = 0) {kind : FrameKind}
    (hkind : inner.kind (level :: outer) = kind) {state : WriterState}
    (hexpects : Draft.Expects (inner :: level :: outer) state none) :
    Drafting l start ds (inner :: level :: outer)
      { w.append (head inner.type (Utf8.encode level.label) ++ [0, 0, 0, 0] ++ inner.content) with
        state, pendingName := none
        frames := ⟨kind, (w.append (head inner.type (Utf8.encode level.label))).pending.size, 0⟩ ::
          Draft.frame 1 level outer :: Draft.frames 1 outer } := by
  have hframe : Draft.frame 0 inner (level :: outer) =
      ⟨kind, (Draft.bytes (level :: outer) ++ head inner.type (Utf8.encode level.label)).length, 0⟩ := by
    rw [Draft.frame, hkind, hindex, Level.lead_of_takesValues hlevel]
  refine ⟨h.handed.of_eq ⟨rfl, rfl, rfl, rfl⟩, ?_, ?_, hexpects, hdepth, hfits, hinner, h.admitted⟩
  · rw [Draft.bytes, Level.lead_of_takesValues hlevel]
    simp only [append, h.pending_eq, appendList_appendList, List.append_assoc]
  · rw [h.size_append, Draft.frames, hframe]
    rfl

/-- A document has been opened that is not the next value of a level. -/
theorem Drafting.entered (h : w.Drafting l start ds draft) {kind : FrameKind}
    (hlead : (Level.fields [] "").lead draft = []) (hkind : (Level.fields [] "").kind draft = kind)
    (hframes : draft.frames 0 = draft.frames 1) (hname : w.pendingName = none)
    (hdepth : w.frames.length < w.limits.maxNestingDepth) :
    Drafting l start ds (.fields [] "" :: draft)
      { w.append [0, 0, 0, 0] with state := .name, frames := ⟨kind, w.pending.size, 0⟩ :: w.frames } := by
  have hframe : Draft.frame 0 (.fields [] "") draft = ⟨kind, draft.bytes.length, 0⟩ := by
    rw [Draft.frame, hkind, hlead, List.append_nil]
    rfl
  have hsize : w.pending.size = draft.bytes.length := by
    rw [h.pending_eq]
    simp
  rw [h.frames_eq, Draft.length_frames] at hdepth
  refine ⟨h.handed.of_eq ⟨rfl, rfl, rfl, rfl⟩, ?_, ?_, .inl ⟨rfl, hname⟩, hdepth, trivial, ⟨trivial, by simp⟩,
    h.admitted⟩
  · rw [Draft.bytes, hlead]
    simp only [append, h.pending_eq, appendList_appendList, Level.content, elements, List.append_nil]
  · rw [Draft.frames, hframe, hsize, h.frames_eq, hframes]

theorem kind_fields (hlevel : level.TakesValues) (done : List (String × Value)) (name : String) :
    (Level.fields done name).kind (level :: outer) = .document := by
  cases level with
  | code c => exact hlevel.elim
  | fields done name => rfl
  | items done => rfl

theorem Drafting.startDocument (h : w.Drafting l start ds draft) (hrun : startDocument.run.run w = (.ok (), t)) :
    ∃ draft', Takes ds draft .startDocument ds draft' ∧ t.Drafting l start ds draft' := by
  by_cases hvalue : w.state = .value
  · obtain ⟨level, outer, rfl, hlevel, hready⟩ := h.exists_ready hvalue
    obtain ⟨hdepth, -, rfl⟩ := (startDocument_decides_value hready).of_run hrun
    rw [Draft.length_frames] at hdepth
    have hopened := h.opened hlevel (.fields [] "") hdepth trivial ⟨trivial, by simp⟩ rfl
      (kind_fields hlevel [] "") (.inl ⟨rfl, rfl⟩)
    rw [Level.content, elements, List.append_nil] at hopened
    exact ⟨_, .document hlevel, hopened⟩
  · have hexpects := h.expects
    match draft with
    | [] =>
        have hdecides := startDocument_decides .document h.handed.held (.inl ⟨hexpects.1, rfl⟩)
        obtain ⟨hdepth, -, rfl⟩ := hdecides.of_run hrun
        exact ⟨_, .top, h.entered rfl rfl rfl hexpects.2 hdepth⟩
    | .code c :: outer =>
        have hdecides := startDocument_decides .scopeDocument h.handed.held (.inr ⟨hexpects.1, rfl⟩)
        obtain ⟨hdepth, -, rfl⟩ := hdecides.of_run hrun
        exact ⟨_, .scope, h.entered rfl rfl rfl hexpects.2 hdepth⟩
    | .fields done name :: outer =>
        obtain ⟨hname, -⟩ | ⟨habsurd, -⟩ := hexpects
        · exact absurd hname (state_of_startDocument hrun)
        · exact absurd habsurd hvalue
    | .items done :: outer => exact absurd hexpects.1 hvalue

theorem Drafting.startArray (h : w.Drafting l start ds draft) (hrun : startArray.run.run w = (.ok (), t)) :
    ∃ draft', Takes ds draft .startArray ds draft' ∧ t.Drafting l start ds draft' := by
  obtain ⟨level, outer, rfl, hlevel, hready⟩ := h.exists_ready (state_of_beginValue hrun)
  obtain ⟨hdepth, -, rfl⟩ := (startArray_decides hready).of_run hrun
  rw [Draft.length_frames] at hdepth
  have hopened := h.opened hlevel (.items []) hdepth hlevel trivial rfl rfl ⟨rfl, rfl⟩
  rw [Level.content, Layout.items, List.append_nil] at hopened
  exact ⟨_, .array hlevel, hopened⟩

theorem Drafting.scopedCode (h : w.Drafting l start ds draft) {code : String}
    (hrun : (writeScopedCode code).run.run w = (.ok (), t)) :
    ∃ draft', Takes ds draft (.writeScopedCode code) ds draft' ∧ t.Drafting l start ds draft' := by
  obtain ⟨level, outer, rfl, hlevel, hready⟩ := h.exists_ready (state_of_beginValue hrun)
  obtain ⟨hdepth, -, rfl⟩ := (writeScopedCode_decides hready code).of_run hrun
  rw [Draft.length_frames] at hdepth
  exact ⟨_, .code hlevel code, h.opened hlevel (.code code) hdepth hlevel trivial rfl rfl ⟨rfl, rfl⟩⟩

theorem Drafting.endArray (h : w.Drafting l start ds draft) (hrun : endArray.run.run w = (.ok (), t)) :
    ∃ draft', Takes ds draft .endArray ds draft' ∧ t.Drafting l start ds draft' := by
  have hkind := kind_of_endArray hrun
  have hframes := h.frames_eq
  rw [hframes] at hkind
  have hexpects := h.expects
  have hpending := h.pending_eq
  obtain ⟨done, outer, rfl⟩ : ∃ done outer, draft = .items done :: outer := by
    match draft with
    | [] => cases hkind
    | .items done :: outer => exact ⟨done, outer, rfl⟩
    | .code c :: outer => cases hkind
    | .fields done name :: [] => cases hkind
    | .fields done name :: around :: outer => cases around <;> cases hkind
  obtain ⟨hdepth, hfits, hdone, houter⟩ := h.admitted
  cases outer with
  | nil => exact hfits.elim
  | cons level outer =>
      have hlevel : level.TakesValues := hfits
      rw [Draft.bytes, Level.lead_of_takesValues hlevel, Level.content] at hpending
      have hdecides := endArray_decides
        (#[].appendList (Draft.bytes (level :: outer) ++ head .array (Utf8.encode level.label))) (Layout.items 0 done)
        ⟨h.handed.held, hframes, by simpa [appendList_appendList, Level.type] using hpending,
          by simp [Draft.frame, Level.lead_of_takesValues hlevel, Level.type]⟩
        hexpects.1 rfl (endValue_run rfl)
      obtain ⟨hcloses, -, rfl⟩ := hdecides.of_run hrun
      have hv : Admits w.limits (outer.length + 1) (.array done) := ⟨hdepth, hdone, hcloses⟩
      exact ⟨_, .endArray hlevel, drafting_closed h.handed hlevel hexpects.2 houter hv⟩

section

variable {done : List (String × Value)} {name : String}

theorem Drafting.pendingName_eq (h : w.Drafting l start ds (.fields done name :: outer)) (hstate : w.state = .name) :
    w.pendingName = none := by
  obtain ⟨-, hname⟩ | ⟨habsurd, -⟩ := h.expects
  · exact hname
  · rw [hstate] at habsurd
    cases habsurd

/-- The document at the top is handed over when it is closed. -/
theorem Drafting.endTop (h : w.Drafting l start ds [.fields done name]) (hstate : w.state = .name)
    (hrun : Writer.endDocument.run.run w = (.ok (), t)) : t.Drafting l start (ds ++ [⟨done⟩]) [] := by
  have hpending := h.pending_eq
  have hname := h.pendingName_eq hstate
  obtain ⟨hdepth, -, ⟨hdone, -⟩, -⟩ := h.admitted
  have hdecides := endDocument_decides_top (elements done)
    ⟨h.handed.held, h.frames_eq, by simpa [Draft.bytes, Level.lead, Level.content] using hpending, rfl⟩ hstate rfl
    h.handed.refusal_eq
  obtain ⟨hcloses, -, rfl⟩ := hdecides.of_run hrun
  refine ⟨⟨h.handed.held, h.handed.limits_eq, h.handed.refusal_eq, ?_, ?_, ?_⟩, rfl, rfl, ⟨.inr rfl, hname⟩, trivial⟩
  · simp [h.handed.received_eq, document]
  · simp [h.handed.flushed_eq, document]
  · intro d hd
    rcases List.mem_append.1 hd with hd | hd
    · exact h.handed.admitted d hd
    · rw [List.mem_singleton.1 hd]
      exact ⟨hdepth, hdone, hcloses⟩

/-- A document that is a value is added to the level around it. -/
theorem Drafting.endInner (h : w.Drafting l start ds (.fields done name :: level :: outer)) (hlevel : level.TakesValues)
    (hstate : w.state = .name) (hrun : Writer.endDocument.run.run w = (.ok (), t)) :
    t.Drafting l start ds (level.add (.document ⟨done⟩) :: outer) := by
  have hpending := h.pending_eq
  have hname := h.pendingName_eq hstate
  obtain ⟨hdepth, -, ⟨hdone, -⟩, houter⟩ := h.admitted
  rw [Draft.bytes, Level.lead_of_takesValues hlevel, Level.content] at hpending
  have hdecides := endDocument_decides
    (#[].appendList (Draft.bytes (level :: outer) ++ head .document (Utf8.encode level.label))) (elements done)
    ⟨h.handed.held, h.frames_eq, by simpa [appendList_appendList, Level.type] using hpending,
      by simp [Draft.frame, Level.lead_of_takesValues hlevel, Level.type]⟩
    hstate (kind_fields hlevel done name) (endValue_run rfl)
  obtain ⟨hcloses, -, rfl⟩ := hdecides.of_run hrun
  have hv : Admits w.limits (outer.length + 1) (.document ⟨done⟩) := ⟨hdepth, hdone, hcloses⟩
  exact drafting_closed h.handed hlevel hname houter hv

/-- A scope completes the code that it belongs to. -/
theorem Drafting.endScope {c : String} (h : w.Drafting l start ds (.fields done name :: .code c :: level :: outer))
    (hlevel : level.TakesValues) (hstate : w.state = .name) (hrun : Writer.endDocument.run.run w = (.ok (), t)) :
    t.Drafting l start ds (level.add (.scopedCode c ⟨done⟩) :: outer) := by
  have hpending := h.pending_eq
  have hname := h.pendingName_eq hstate
  obtain ⟨hdepth, -, ⟨hdone, -⟩, hdepth', -, -, houter⟩ := h.admitted
  rw [Draft.bytes, Draft.bytes, Level.lead_of_takesValues hlevel] at hpending
  have hdecides := endScope_decides
    (#[].appendList (Draft.bytes (level :: outer) ++ head .scopedCode (Utf8.encode level.label))) (text c)
    (elements done)
    ⟨h.handed.held, h.frames_eq,
      by simpa [appendList_appendList, Level.type, Level.content, Level.lead] using hpending,
      by
        rw [Draft.frame, Draft.bytes, Level.lead_of_takesValues hlevel]
        simp [Level.type, Level.lead, Level.content]⟩
    hstate rfl
    (by
      rw [Draft.frame, Level.lead_of_takesValues hlevel]
      simp [Level.type])
  obtain ⟨⟨hcloses, hcloses'⟩, -, rfl⟩ := hdecides.of_run hrun
  have hv : Admits w.limits (outer.length + 1) (.scopedCode c ⟨done⟩) := ⟨hdepth', hdepth, hdone, hcloses, hcloses'⟩
  exact drafting_closed h.handed hlevel hname houter hv

end

theorem Drafting.endDocument (h : w.Drafting l start ds draft) (hrun : endDocument.run.run w = (.ok (), t)) :
    ∃ ds' draft', Takes ds draft .endDocument ds' draft' ∧ t.Drafting l start ds' draft' := by
  obtain ⟨hkind, hstate⟩ := state_of_endDocument hrun
  rw [h.frames_eq] at hkind
  match draft with
  | [] => obtain hkind | hkind := hkind <;> cases hkind
  | .items done :: outer => obtain hkind | hkind := hkind <;> cases hkind
  | .code c :: outer => obtain hkind | hkind := hkind <;> cases hkind
  | [.fields done name] => exact ⟨_, _, .endTop, h.endTop hstate hrun⟩
  | .fields done name :: .code c :: [] => exact h.admitted.2.2.2.2.1.elim
  | .fields done name :: .code c :: level :: outer =>
      have hlevel : level.TakesValues := h.admitted.2.2.2.2.1
      exact ⟨_, _, .endScope hlevel, h.endScope hlevel hstate hrun⟩
  | .fields done name :: .fields done' name' :: outer =>
      exact ⟨_, _, .endDocument trivial, h.endInner trivial hstate hrun⟩
  | .fields done name :: .items done' :: outer => exact ⟨_, _, .endDocument trivial, h.endInner trivial hstate hrun⟩

/-- A call that succeeds does to the draft what it says. -/
theorem Drafting.call (h : w.Drafting l start ds draft) {c : Call} (hrun : c.write.run.run w = (.ok (), t)) :
    ∃ ds' draft', Takes ds draft c ds' draft' ∧ t.Drafting l start ds' draft' := by
  cases c with
  | writeName name => exact ⟨ds, h.name hrun⟩
  | startDocument => exact ⟨ds, h.startDocument hrun⟩
  | endDocument => exact h.endDocument hrun
  | startArray => exact ⟨ds, h.startArray hrun⟩
  | endArray => exact ⟨ds, h.endArray hrun⟩
  | writeScopedCode code => exact ⟨ds, h.scopedCode hrun⟩
  | _ => exact ⟨ds, h.scalar rfl hrun⟩

end

end Writer

end Aggregation.Wire
