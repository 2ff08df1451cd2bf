import Aggregation.Proofs.Wire.Clients
import Aggregation.Proofs.Wire.Streams
import Mathlib.Logic.Function.Iterate

/-! Walking through documents. At each place there is one call that goes on, and the state of a reader tells which; what
the calls give is what is heard. Documents that a writer takes are heard to their end, and of each value is heard what
it is, whatever names stand twice. -/

namespace Aggregation.Wire

open Stepping Layout Read Reader

/-- The call that reads a value of a type, or enters it. -/
def ElementType.reading : ElementType → Call
  | .double => .readDouble
  | .string => .readString
  | .document => .startDocument
  | .array => .startArray
  | .binary => .readBinary
  | .undefined => .readUndefined
  | .objectId => .readObjectId
  | .boolean => .readBoolean
  | .dateTime => .readDateTime
  | .null => .readNull
  | .regularExpression => .readRegularExpression
  | .dbPointer => .readDbPointer
  | .javaScript => .readJavaScript
  | .symbol => .readSymbol
  | .scopedCode => .readScopedCode
  | .int32 => .readInt32
  | .timestamp => .readTimestamp
  | .int64 => .readInt64
  | .decimal128 => .readDecimal128
  | .minKey => .readMinKey
  | .maxKey => .readMaxKey
  | .endOfDocument => .endDocument

/-- The call that the state of a reader asks for. -/
def Reader.next (r : Reader) : Call :=
  match r.state with
  | .initial | .done | .scopeDocument => .startDocument
  | .type => .readType
  | .name => .readName
  | .value => (r.currentType.map ElementType.reading).getD .skipValue
  | .endOfDocument => .endDocument
  | .endOfArray => .endArray
  | .closed => .isAtEnd

/-- A call, and what it gives. -/
structure Heard where
  call : Call
  result : call.Result

/-- From one reader to the other, each call is the one that is asked for, and gives what is heard. -/
inductive Walks : Reader → List Heard → Reader → Prop
  | nil (r : Reader) : Walks r [] r
  | cons {r r' r'' : Reader} {heard : Heard} {later : List Heard} (hnext : r.next = heard.call)
      (hread : heard.call.read.run.run r = (.ok heard.result, r')) (hlater : Walks r' later r'') :
      Walks r (heard :: later) r''

/-- What is heard before a value: its type and its name. -/
def announced (type : ElementType) (name : String) : List Heard := [⟨.readType, type⟩, ⟨.readName, name⟩]

/-- What is heard where a document ends. -/
def documentEnd : List Heard := [⟨.readType, .endOfDocument⟩, ⟨.endDocument, ()⟩]

/-- What is heard where an array ends. -/
def arrayEnd : List Heard := [⟨.readType, .endOfDocument⟩, ⟨.endArray, ()⟩]

mutual

/-- What is heard of a value. -/
def heardValue : Value → List Heard
  | .double x => [⟨.readDouble, x⟩]
  | .string s => [⟨.readString, s⟩]
  | .document ⟨fields⟩ => ⟨.startDocument, ()⟩ :: heardFields fields ++ documentEnd
  | .array xs => ⟨.startArray, ()⟩ :: heardItems 0 xs ++ arrayEnd
  | .binary subtype bytes => [⟨.readBinary, (subtype, bytes)⟩]
  | .undefined => [⟨.readUndefined, ()⟩]
  | .objectId id => [⟨.readObjectId, id⟩]
  | .boolean b => [⟨.readBoolean, b⟩]
  | .dateTime millis => [⟨.readDateTime, millis⟩]
  | .null => [⟨.readNull, ()⟩]
  | .regularExpression pattern options => [⟨.readRegularExpression, (pattern, options)⟩]
  | .dbPointer collection id => [⟨.readDbPointer, (collection, id)⟩]
  | .javaScript code => [⟨.readJavaScript, code⟩]
  | .symbol name => [⟨.readSymbol, name⟩]
  | .scopedCode code ⟨fields⟩ =>
    ⟨.readScopedCode, code⟩ :: ⟨.startDocument, ()⟩ :: heardFields fields ++ documentEnd
  | .int32 n => [⟨.readInt32, n⟩]
  | .timestamp time increment => [⟨.readTimestamp, (time, increment)⟩]
  | .int64 n => [⟨.readInt64, n⟩]
  | .decimal128 d => [⟨.readDecimal128, d⟩]
  | .minKey => [⟨.readMinKey, ()⟩]
  | .maxKey => [⟨.readMaxKey, ()⟩]

/-- What is heard of named values. -/
def heardFields : List (String × Value) → List Heard
  | [] => []
  | (name, v) :: rest => announced v.elementType name ++ heardValue v ++ heardFields rest

/-- What is heard of items, whose names are their indices. -/
def heardItems (index : Nat) : List Value → List Heard
  | [] => []
  | v :: rest => announced v.elementType (toString index) ++ heardValue v ++ heardItems (index + 1) rest

end

/-- What is heard of a document at the top. -/
def heardDocument (d : Document) : List Heard := ⟨.startDocument, ()⟩ :: heardFields d.entries ++ documentEnd

theorem Walks.trans {r r' r'' : Reader} {heard later : List Heard} (h : Walks r heard r') (h' : Walks r' later r'') :
    Walks r (heard ++ later) r'' := by
  induction h with
  | nil r => exact h'
  | cons hnext hread _ ih => exact .cons hnext hread (ih h')

/-- The reader after the call that is asked for. -/
def Reader.forward (r : Reader) : Reader := (r.next.read.run.run r).2

/-- There is one way to walk. -/
theorem Walks.eq_iterate {r r' : Reader} {heard : List Heard} (h : Walks r heard r') :
    r' = Reader.forward^[heard.length] r := by
  induction h with
  | nil r => rfl
  | @cons r s r'' first later hnext hread _ ih =>
      have hforward : r.forward = s := by rw [Reader.forward, hnext, hread]
      rw [List.length_cons, Function.iterate_succ_apply, hforward]
      exact ih

/-- On the way every call succeeds. -/
theorem Walks.isOk_iterate {r r' : Reader} {heard : List Heard} (h : Walks r heard r') (i : Nat)
    (hi : i < heard.length) :
    ((Reader.forward^[i] r).next.read.run.run (Reader.forward^[i] r)).1.isOk = true := by
  induction h generalizing i with
  | nil r => exact absurd hi (Nat.not_lt_zero i)
  | @cons r s r'' first later hnext hread _ ih =>
      have hforward : r.forward = s := by rw [Reader.forward, hnext, hread]
      cases i with
      | zero =>
          show (r.next.read.run.run r).1.isOk = true
          rw [hnext, hread]
          rfl
      | succ i =>
          rw [Function.iterate_succ_apply, hforward]
          exact ih i (Nat.lt_of_succ_lt_succ hi)

theorem Limits.Bounds.of_le {l : Limits} {n m : Nat} (h : l.Bounds m) (hle : n ≤ m) : l.Bounds n := by
  rw [Limits.Bounds] at h ⊢
  omega

/-- From one reader to the other, something is heard of bytes that are read. -/
structure Passes (r : Reader) (heard : List Heard) (bytes : List UInt8) (r' : Reader) : Prop where
  walks : Walks r heard r'
  advances : r.input.Advances bytes r'.input

section

variable {r r' r'' : Reader} {l : Limits} {frame : Frame} {frames : List Frame} {heard later : List Heard}
  {bytes rest : List UInt8}

theorem Passes.trans {bytes' : List UInt8} (h : Passes r heard bytes r') (h' : Passes r' later bytes' r'') :
    Passes r (heard ++ later) (bytes ++ bytes') r'' :=
  ⟨h.walks.trans h'.walks, h.advances.trans h'.advances⟩

theorem Passes.unread_eq (h : Passes r heard bytes r') (hunread : r.input.unread = bytes ++ rest) :
    r'.input.unread = rest :=
  List.append_cancel_left (h.advances.unread_eq.symm.trans hunread)

theorem Passes.position_eq (h : Passes r heard bytes r') : r'.position = r.position + bytes.length :=
  h.advances.position_eq

theorem passes_nil (h : r.input.Live) : Passes r [] [] r := ⟨.nil r, h.refl⟩

/-- A call that reads bytes of a form passes over bytes of the form. -/
theorem exists_passes (call : Call) (a : call.Result) {form : call.Result → List UInt8 → Prop}
    {next : call.Result → List UInt8 → Reader → Prop} (hnext : r.next = call)
    (hread : Consumes Reader.input (bytes.length + 1) call.read r form next) (hform : form a bytes)
    (hunread : r.input.unread = bytes ++ rest) : ∃ r', Passes r [⟨call, a⟩] bytes r' ∧ next a bytes r' := by
  obtain ⟨r', hrun, hadvances, hafter⟩ := hread.complete a bytes rest hform (Nat.lt_succ_self _) hunread
  exact ⟨r', ⟨.cons hnext hrun (.nil r'), hadvances⟩, hafter⟩

theorem next_of_type (h : r.At l frames .type) : r.next = .readType := by
  rw [Reader.next, h.state_eq]

theorem next_of_value {type : ElementType} (h : r.At l frames .value) (htype : r.currentType = some type) :
    r.next = type.reading := by
  rw [Reader.next, h.state_eq, htype]
  rfl

theorem next_of_mayEnter {kind : FrameKind} (h : r.MayEnter kind) : r.next = .startDocument := by
  rw [Reader.next]
  rcases h with ⟨hstate | hstate, -⟩ | ⟨hstate, -⟩ | ⟨hstate, htype, -⟩
  · rw [hstate]
  · rw [hstate]
  · rw [hstate]
  · rw [hstate, htype]
    rfl

/-- The head of an element is heard as the type and the name. -/
theorem exists_passes_head {type : ElementType} {name : String} (h : r.At l (frame :: frames) .type)
    (htype : type ≠ .endOfDocument) (hname : '\x00' ∉ name.toList)
    (hunread : r.input.unread = head type (Utf8.encode name) ++ rest) :
    ∃ r', Passes r (announced type name) (head type (Utf8.encode name)) r' ∧
      r'.At l (passed frame :: frames) .value ∧ r'.currentType = some type := by
  have hhead : head type (Utf8.encode name) = [type.tag] ++ cstring name := rfl
  rw [hhead, List.append_assoc] at hunread
  obtain ⟨r₁, htag, hafter⟩ := exists_passes .readType type (next_of_type h) (readType_consumes h) rfl hunread
  rw [AfterTag, if_neg htype] at hafter
  obtain ⟨hat, hcurrent⟩ := hafter
  have hnext : r₁.next = .readName := by rw [Reader.next, hat.state_eq]
  obtain ⟨r₂, hread, hat₂⟩ :=
    exists_passes .readName name hnext (readName_consumes hat hcurrent) ⟨rfl, hname⟩ (htag.unread_eq hunread)
  exact ⟨r₂, htag.trans hread, hat₂⟩

/-- A container begins with a word that declares its length. -/
theorem exists_word (hl : l.maxDocumentSize < 2147483648) {body : List UInt8}
    (hdepth : frames.length < l.maxNestingDepth) (hbounds : l.Bounds (container body).length) :
    ∃ word, IsContainerWord l frames word ∧ declaredLength word = (word ++ (body ++ [0])).length ∧
      container body = word ++ (body ++ [0]) := by
  obtain ⟨word, _, hword, rfl, hlength, hbytes⟩ :=
    (exists_container_iff hl (p := fun b => b = body)).2 ⟨hdepth, body, rfl, rfl, hbounds⟩
  exact ⟨word, hword, hlength, hbytes⟩

/-- A container is walked through if it is opened, its elements are walked through, and it ends with what they leave.
Within an array the index moves on. -/
theorem exists_passes_container (hl : l.maxDocumentSize < 2147483648) {kind : FrameKind} {opening closing : Heard}
    {outer : List Frame} {body : List UInt8} {elements : List Heard} (hdepth : frames.length < l.maxNestingDepth)
    (hbounds : l.Bounds (container body).length) (hunread : r.input.unread = container body ++ rest)
    (hopen : ∀ word rest, IsContainerWord l frames word → r.input.unread = word ++ rest →
      ∃ r', Passes r [opening] word r' ∧ ∃ frame, r.Opened kind word frame ∧ r'.At l (frame :: frames) .type)
    (hbody : ∀ (frame : Frame) (r' : Reader) (rest : List UInt8), frame.kind = kind → r'.At l (frame :: frames) .type →
      r'.input.unread = body ++ rest →
        ∃ r'', Passes r' elements body r'' ∧ ∃ index, r''.At l ({ frame with index } :: frames) .type)
    (hclose : ∀ (frame : Frame) (r' : Reader), frame.kind = kind →
      r'.At l (frame :: frames) (if frame.kind = .array then .endOfArray else .endOfDocument) →
        EndsAt frame r'.position → r'.position = r.position + (container body).length →
          ∃ r'', Passes r' [closing] [] r'' ∧ r''.At l outer (afterContainer outer)) :
    ∃ r', Passes r (opening :: elements ++ [⟨.readType, .endOfDocument⟩, closing]) (container body) r' ∧
      r'.At l outer (afterContainer outer) := by
  obtain ⟨word, hword, hlength, hbytes⟩ := exists_word hl hdepth hbounds
  rw [hbytes, List.append_assoc] at hunread
  obtain ⟨r₁, hopened, frame, hframe, hat₁⟩ := hopen word _ hword hunread
  have hunread₁ := hopened.unread_eq hunread
  rw [List.append_assoc] at hunread₁
  obtain ⟨r₂, helements, index, hat₂⟩ := hbody frame r₁ _ hframe.kind_eq hat₁ hunread₁
  obtain ⟨r₃, hterminator, hafter⟩ :=
    exists_passes .readType .endOfDocument (next_of_type hat₂) (readType_consumes hat₂) rfl
      (helements.unread_eq hunread₁)
  rw [AfterTag, if_pos rfl] at hafter
  have hpasses := (hopened.trans helements).trans hterminator
  have hends : EndsAt { frame with index } r₃.position := by
    have hrest := (helements.trans hterminator).advances
    have hframe' : r.Opened kind word { frame with index } := ⟨hframe.kind_eq, hframe.start_eq, hframe.declared_eq⟩
    exact (endsAt_iff hframe' hopened.advances hrest).2 hlength
  have hposition : r₃.position = r.position + (container body).length := by
    rw [hpasses.position_eq, hbytes, List.append_assoc]
    rfl
  obtain ⟨r₄, hclosed, hat₄⟩ := hclose { frame with index } r₃ hframe.kind_eq hafter hends hposition
  have hall := hpasses.trans hclosed
  simp only [List.append_assoc, List.append_nil, List.cons_append, List.nil_append] at hall
  refine ⟨r₄, ?_, hat₄⟩
  rw [hbytes, List.cons_append]
  exact hall

end

section

variable {l : Limits}

/-- A document is walked through wherever it stands, if its fields are. -/
theorem exists_passes_document (hl : l.maxDocumentSize < 2147483648) {r : Reader} {kind : FrameKind}
    {state : ReaderState} {frames outer : List Frame} {fields : List (String × Value)} {rest : List UInt8}
    (h : r.At l frames state) (hkind : r.MayEnter kind)
    (hdepth : frames.length < l.maxNestingDepth) (hbounds : l.Bounds (container (elements fields)).length)
    (hunread : r.input.unread = container (elements fields) ++ rest)
    (hfields : ∀ (frame : Frame) (r' : Reader) (rest : List UInt8), frame.kind ≠ .array →
      r'.At l (frame :: frames) .type → r'.input.unread = elements fields ++ rest →
        ∃ r'', Passes r' (heardFields fields) (elements fields) r'' ∧ r''.At l (frame :: frames) .type)
    (hclose : ∀ (frame : Frame) (r' : Reader), frame.kind = kind → r'.At l (frame :: frames) .endOfDocument →
      EndsAt frame r'.position → r'.position = r.position + (container (elements fields)).length →
        ∃ r'', Passes r' [⟨.endDocument, ()⟩] [] r'' ∧ r''.At l outer (afterContainer outer)) :
    ∃ r', Passes r (⟨.startDocument, ()⟩ :: heardFields fields ++ documentEnd) (container (elements fields)) r' ∧
      r'.At l outer (afterContainer outer) := by
  have hdocument : kind ≠ .array := by
    rcases hkind with ⟨_, rfl⟩ | ⟨_, rfl⟩ | ⟨_, _, rfl⟩ <;> decide
  apply exists_passes_container hl hdepth hbounds hunread
  · intro word rest hword hunread
    exact exists_passes .startDocument () (next_of_mayEnter hkind) (startDocument_consumes h hkind) hword hunread
  · intro frame r' rest hframe hat hunread
    obtain ⟨r'', hpasses, hat'⟩ := hfields frame r' rest (by rwa [hframe]) hat hunread
    exact ⟨r'', hpasses, frame.index, hat'⟩
  · intro frame r' hframe hat
    rw [if_neg (by rwa [hframe])] at hat
    exact hclose frame r' hframe hat

theorem exists_passes_endDocument {r : Reader} {frame : Frame} {frames : List Frame}
    (h : r.At l (frame :: frames) .endOfDocument) (hkind : frame.kind = .document) (hends : EndsAt frame r.position) :
    ∃ r', Passes r [⟨.endDocument, ()⟩] [] r' ∧ r'.At l frames (afterContainer frames) := by
  have hnext : r.next = .endDocument := by rw [Reader.next, h.state_eq]
  exact exists_passes .endDocument () hnext (endDocument_consumes h hkind) ⟨rfl, hends⟩ rfl

mutual

/-- Of a value that a writer takes is heard what it is. -/
theorem exists_passes_value (hl : l.maxDocumentSize < 2147483648) {frame : Frame} {frames : List Frame} :
    ∀ (v : Value) {r : Reader} {rest : List UInt8}, Admits l (frames.length + 1) v → l.Bounds (value v).length →
      r.At l (frame :: frames) .value → r.currentType = some v.elementType → r.input.unread = value v ++ rest →
        ∃ r', Passes r (heardValue v) (value v) r' ∧ r'.At l (frame :: frames) .type
  | .double x, _, _, _, _, h, htype, hunread =>
    exists_passes .readDouble x (next_of_value h htype) (readScalar_gives h htype _ (double_gives h.live)) rfl hunread
  | .string s, _, _, ha, hsize, h, htype, hunread => by
    obtain rfl := h.limits_eq
    exact exists_passes .readString s (next_of_value h htype)
      (readScalar_gives h htype _ (stringPayload_gives h.live hl))
      (isForm_value (.string s) ha trivial hsize) hunread
  | .document ⟨fields⟩, r, rest, ha, hsize, h, htype, hunread => by
    obtain ⟨hdepth, hfields, -⟩ := ha
    have hbody : l.Bounds (elements fields).length := hsize.of_le (by rw [value, length_container]; omega)
    apply exists_passes_document hl h (.inr (.inr ⟨h.state_eq, htype, rfl⟩)) hdepth hsize hunread
    · intro frame' r' rest' hframe hat hunread
      exact exists_passes_fields hl fields hfields hbody hframe hat hunread
    · intro frame' r' hframe hat hends _
      exact exists_passes_endDocument hat hframe hends
  | .array xs, r, rest, ha, hsize, h, htype, hunread => by
    obtain ⟨hdepth, hitems, -⟩ : (frame :: frames).length < l.maxNestingDepth ∧ _ := ha
    have hbody : l.Bounds (items 0 xs).length := hsize.of_le (by rw [value, length_container]; omega)
    apply exists_passes_container hl hdepth hsize hunread
    · intro word rest hword hunread
      exact exists_passes .startArray () (next_of_value h htype) (startArray_consumes h htype) hword hunread
    · intro frame' r' rest' hframe hat hunread
      exact exists_passes_items hl xs 0 hitems hbody hframe hat hunread
    · intro frame' r' hframe hat hends _
      rw [if_pos hframe] at hat
      have hnext : r'.next = .endArray := by rw [Reader.next, hat.state_eq]
      exact exists_passes .endArray () hnext (endArray_consumes hat hframe) ⟨rfl, hends⟩ rfl
  | .scopedCode code ⟨fields⟩, r, rest, ha, hsize, h, htype, hunread => by
    obtain ⟨hdepth, hdepth', hfields, -⟩ := ha
    obtain ⟨word, hsized, hword, hlength⟩ : ∃ word, value (.scopedCode code ⟨fields⟩) =
        word ++ (text code ++ container (elements fields)) ∧ IsContainerWord l (frame :: frames) word ∧
          declaredLength word = (word ++ (text code ++ container (elements fields))).length := by
      have hfour := length_littleEndianBytes 4 ((text code ++ container (elements fields)).length + 4)
      obtain ⟨hn, hlength⟩ := (declaredLength_eq_iff hl).2 ⟨rfl, hfour, hsize⟩
      exact ⟨_, rfl, ⟨hdepth, hn⟩, hlength⟩
    rw [hsized] at hsize
    simp only [List.length_append, length_text, length_container] at hsize
    rw [hsized, ← List.append_assoc word, List.append_assoc] at hunread
    obtain ⟨r₁, hcode, word', around, hfour, hbytes, hframe, hat⟩ :=
      exists_passes .readScopedCode code (next_of_value h htype) (readScopedCode_consumes hl h htype)
        ⟨word, hword, hsize.of_le (by omega), rfl⟩ hunread
    obtain rfl : word = word' := List.append_cancel_right hbytes
    obtain ⟨r₂, hscope, hat₂⟩ : ∃ r₂, Passes r₁ (⟨.startDocument, ()⟩ :: heardFields fields ++ documentEnd)
        (container (elements fields)) r₂ ∧ r₂.At l (frame :: frames) (afterContainer (frame :: frames)) := by
      apply exists_passes_document hl hat (.inr (.inl ⟨hat.state_eq, rfl⟩)) hdepth' _ (hcode.unread_eq hunread)
      · intro frame' r' rest' hframe hat hunread
        exact exists_passes_fields hl fields hfields (hsize.of_le (by omega)) hframe hat hunread
      · intro frame' r' hscope hat' hends hposition
        have hnext : r'.next = .endDocument := by rw [Reader.next, hat'.state_eq]
        have haround : EndsAt around r'.position := by
          rw [EndsAt, hframe.declared_eq, hlength, hframe.start_eq, hposition, hcode.position_eq]
          simp only [List.length_append]
          omega
        exact exists_passes .endDocument () hnext (endScope_consumes hat' hscope hframe.kind_eq)
          ⟨rfl, hends, haround⟩ rfl
      · exact hsize.of_le (by rw [length_container]; omega)
    have hall := hcode.trans hscope
    rw [List.append_assoc] at hall
    exact ⟨r₂, hsized ▸ hall, hat₂⟩
  | .binary subtype content, _, _, ha, hsize, h, htype, hunread => by
    obtain rfl := h.limits_eq
    exact exists_passes .readBinary (subtype, content) (next_of_value h htype)
      (readScalar_gives h htype _ (binaryPayload_gives h.live hl))
      (isForm_value (.binary subtype content) ha trivial hsize) hunread
  | .undefined, _, _, _, _, h, htype, hunread =>
    exists_passes .readUndefined () (next_of_value h htype)
      (readScalar_gives h htype _ (empty_gives h.live)) rfl hunread
  | .objectId id, _, _, _, _, h, htype, hunread =>
    exists_passes .readObjectId id (next_of_value h htype)
      (readScalar_gives h htype _ (objectIdPayload_gives h.live)) rfl hunread
  | .boolean b, _, _, _, _, h, htype, hunread =>
    exists_passes .readBoolean b (next_of_value h htype)
      (readScalar_gives h htype _ (booleanPayload_gives h.live)) rfl hunread
  | .dateTime millis, _, _, _, _, h, htype, hunread =>
    exists_passes .readDateTime millis (next_of_value h htype)
      (readScalar_gives h htype _ (onInput_consumes (Replay.int64_consumes h.live))) rfl hunread
  | .null, _, _, _, _, h, htype, hunread =>
    exists_passes .readNull () (next_of_value h htype) (readScalar_gives h htype _ (empty_gives h.live)) rfl hunread
  | .regularExpression pattern options, _, _, ha, _, h, htype, hunread =>
    exists_passes .readRegularExpression (pattern, options) (next_of_value h htype)
      (readScalar_gives h htype _ (regularExpression_gives h.live)) ⟨rfl, ha⟩ hunread
  | .dbPointer collection id, _, _, ha, hsize, h, htype, hunread => by
    obtain rfl := h.limits_eq
    exact exists_passes .readDbPointer (collection, id) (next_of_value h htype)
      (readScalar_gives h htype _ (dbPointer_gives h.live hl))
      (isForm_value (.dbPointer collection id) ha trivial hsize) hunread
  | .javaScript code, _, _, ha, hsize, h, htype, hunread => by
    obtain rfl := h.limits_eq
    exact exists_passes .readJavaScript code (next_of_value h htype)
      (readScalar_gives h htype _ (stringPayload_gives h.live hl))
      (isForm_value (.javaScript code) ha trivial hsize) hunread
  | .symbol name, _, _, ha, hsize, h, htype, hunread => by
    obtain rfl := h.limits_eq
    exact exists_passes .readSymbol name (next_of_value h htype)
      (readScalar_gives h htype _ (stringPayload_gives h.live hl))
      (isForm_value (.symbol name) ha trivial hsize) hunread
  | .int32 n, _, _, _, _, h, htype, hunread =>
    exists_passes .readInt32 n (next_of_value h htype)
      (readScalar_gives h htype _ (onInput_consumes (Replay.int32_consumes h.live))) rfl hunread
  | .timestamp time increment, _, _, _, _, h, htype, hunread =>
    exists_passes .readTimestamp (time, increment) (next_of_value h htype)
      (readScalar_gives h htype _ (timestamp_gives h.live)) rfl hunread
  | .int64 n, _, _, _, _, h, htype, hunread =>
    exists_passes .readInt64 n (next_of_value h htype)
      (readScalar_gives h htype _ (onInput_consumes (Replay.int64_consumes h.live))) rfl hunread
  | .decimal128 d, _, _, _, _, h, htype, hunread =>
    exists_passes .readDecimal128 d (next_of_value h htype)
      (readScalar_gives h htype _ (decimal128Payload_gives h.live)) rfl hunread
  | .minKey, _, _, _, _, h, htype, hunread =>
    exists_passes .readMinKey () (next_of_value h htype) (readScalar_gives h htype _ (empty_gives h.live)) rfl hunread
  | .maxKey, _, _, _, _, h, htype, hunread =>
    exists_passes .readMaxKey () (next_of_value h htype) (readScalar_gives h htype _ (empty_gives h.live)) rfl hunread

theorem exists_passes_fields (hl : l.maxDocumentSize < 2147483648) {frame : Frame} {frames : List Frame} :
    ∀ (fields : List (String × Value)) {r : Reader} {rest : List UInt8},
      AdmitsElements l (frames.length + 1) fields → l.Bounds (elements fields).length → frame.kind ≠ .array →
        r.At l (frame :: frames) .type → r.input.unread = elements fields ++ rest →
          ∃ r', Passes r (heardFields fields) (elements fields) r' ∧ r'.At l (frame :: frames) .type
  | [], r, _, _, _, _, h, _ => ⟨r, passes_nil h.live, h⟩
  | (name, v) :: later, r, rest, ha, hsize, hkind, h, hunread => by
    obtain ⟨hname, hv, hlater⟩ := ha
    rw [elements, List.length_append, List.length_append] at hsize
    rw [elements, List.append_assoc, List.append_assoc] at hunread
    obtain ⟨r₁, hhead, hat, htype⟩ := exists_passes_head h (elementType_ne_endOfDocument v) hname hunread
    rw [passed, if_neg hkind] at hat
    have hunread₁ := hhead.unread_eq hunread
    obtain ⟨r₂, hvalue, hat₂⟩ := exists_passes_value hl v hv (hsize.of_le (by omega)) hat htype hunread₁
    obtain ⟨r₃, hrest, hat₃⟩ :=
      exists_passes_fields hl later hlater (hsize.of_le (by omega)) hkind hat₂ (hvalue.unread_eq hunread₁)
    exact ⟨r₃, (hhead.trans hvalue).trans hrest, hat₃⟩

theorem exists_passes_items (hl : l.maxDocumentSize < 2147483648) {frame : Frame} {frames : List Frame} :
    ∀ (xs : List Value) (index : Nat) {r : Reader} {rest : List UInt8}, AdmitsItems l (frames.length + 1) xs →
      l.Bounds (items index xs).length → frame.kind = .array → r.At l (frame :: frames) .type →
        r.input.unread = items index xs ++ rest →
          ∃ r', Passes r (heardItems index xs) (items index xs) r' ∧
            ∃ index', r'.At l ({ frame with index := index' } :: frames) .type
  | [], _, r, _, _, _, _, h, _ => ⟨r, passes_nil h.live, frame.index, h⟩
  | v :: later, index, r, rest, ha, hsize, hkind, h, hunread => by
    obtain ⟨hv, hlater⟩ := ha
    rw [items, List.length_append, List.length_append] at hsize
    rw [items, List.append_assoc, List.append_assoc] at hunread
    have hname : '\x00' ∉ (toString index).toList := by
      rw [← Utf8.zero_mem_encode]
      exact Utf8.zero_notMem_encode_toString index
    obtain ⟨r₁, hhead, hat, htype⟩ := exists_passes_head h (elementType_ne_endOfDocument v) hname hunread
    rw [passed, if_pos hkind] at hat
    have hunread₁ := hhead.unread_eq hunread
    obtain ⟨r₂, hvalue, hat₂⟩ := exists_passes_value hl v hv (hsize.of_le (by omega)) hat htype hunread₁
    have hkind' : Frame.kind { frame with index := frame.index + 1 } = .array := hkind
    obtain ⟨r₃, hrest, index', hat₃⟩ :=
      exists_passes_items hl later (index + 1) hlater (hsize.of_le (by omega)) hkind' hat₂ (hvalue.unread_eq hunread₁)
    exact ⟨r₃, (hhead.trans hvalue).trans hrest, index', hat₃⟩

end

/-- A document at the top that a writer takes is heard whole. -/
theorem exists_passes_heardDocument (hl : l.maxDocumentSize < 2147483648) (hfault : l.fault? = none) {d : Document}
    (hd : Admits l 0 (.document d)) {r : Reader} {rest : List UInt8} (h : r.Idle l)
    (hunread : r.input.unread = document d ++ rest) :
    ∃ r', Passes r (heardDocument d) (document d) r' ∧ r'.Idle l := by
  obtain ⟨fields⟩ := d
  have hsize : l.Bounds (container (elements fields)).length := ((admits_document_iff hfault _).1 hd).2.2
  obtain ⟨hdepth, hfields, -⟩ := hd
  have hbody : l.Bounds (elements fields).length := hsize.of_le (by rw [length_container]; omega)
  obtain ⟨state, hstate, hat⟩ := h
  have henter : r.MayEnter .document := .inl ⟨hat.state_eq ▸ hstate, rfl⟩
  obtain ⟨r', hpasses, hat'⟩ : ∃ r', Passes r (heardDocument ⟨fields⟩) (container (elements fields)) r' ∧
      r'.At l [] (afterContainer []) := by
    apply exists_passes_document hl hat henter hdepth hsize hunread
    · intro frame r' rest' hframe hat' hunread'
      exact exists_passes_fields hl fields hfields hbody hframe hat' hunread'
    · intro frame r' hframe hat' hends _
      exact exists_passes_endDocument hat' hframe hends
  exact ⟨r', hpasses, .done, .inr rfl, hat'⟩

/-- Documents that a writer takes are heard one after the other. -/
theorem exists_passes_flatMap (hl : l.maxDocumentSize < 2147483648) (hfault : l.fault? = none) {ds : List Document}
    (hds : ∀ d ∈ ds, Admits l 0 (.document d)) {r : Reader} (h : r.Idle l)
    (hunread : r.input.unread = ds.flatMap document) :
    ∃ r', Passes r (ds.flatMap heardDocument) (ds.flatMap document) r' ∧ r'.Idle l := by
  induction ds generalizing r with
  | nil =>
      obtain ⟨state, hstate, hat⟩ := h
      exact ⟨r, passes_nil hat.live, state, hstate, hat⟩
  | cons d later ih =>
      obtain ⟨r₁, hfirst, hidle⟩ := exists_passes_heardDocument hl hfault (hds d List.mem_cons_self) h hunread
      obtain ⟨r₂, hrest, hidle'⟩ :=
        ih (fun d hd => hds d (List.mem_cons_of_mem _ hd)) hidle (hfirst.unread_eq hunread)
      exact ⟨r₂, hfirst.trans hrest, hidle'⟩

/-- A source over documents that a writer takes is walked through to its end. -/
theorem exists_walks (hl : l.maxDocumentSize < 2147483648) (hfault : l.fault? = none) {ds : List Document}
    (hds : ∀ d ∈ ds, Admits l 0 (.document d)) {source : Source} (hcontent : source.content = ds.flatMap document)
    (hending : source.ending = .ends) (serial : Nat) :
    ∃ r r', Walks (.ofSource source l serial) (ds.flatMap heardDocument) r ∧
      isAtEnd.run.run r = (.ok true, r') ∧ r'.position = (ds.flatMap document).length := by
  obtain ⟨r, hpasses, hidle⟩ := exists_passes_flatMap hl hfault hds (idle_ofSource hending l serial) hcontent
  have hnil : r.input.unread = [] := hpasses.unread_eq (hcontent.trans (List.append_nil _).symm)
  obtain ⟨r', hend, hadvances, -⟩ := isAtEnd_run hidle
  rw [hnil, decide_eq_true rfl] at hend
  refine ⟨r, r', hpasses.walks, hend, ?_⟩
  calc r'.position = r.position := hadvances.position_eq
    _ = (Reader.ofSource source l serial).position + (ds.flatMap document).length := hpasses.position_eq
    _ = (ds.flatMap document).length := Nat.zero_add _

end

end Aggregation.Wire
