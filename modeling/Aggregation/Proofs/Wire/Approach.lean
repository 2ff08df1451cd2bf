import Aggregation.Proofs.Wire.Canonical
import Aggregation.Proofs.Wire.Sites

/-! Coming to an element. What stands in front of it is known: words, tags, names and whole values, and each is passed
over. A container that is opened keeps the part that it has in paths, which its place and the name before it give. -/

namespace Aggregation.Wire

open Stepping Layout Read Reader

variable {l : Limits}

namespace Reader

variable {r r' : Reader} {frame : Frame} {frames : List Frame} {name : String} {more : List UInt8}

theorem passed_segment (frame : Frame) : (passed frame).segment = frame.segment := by
  rw [passed]
  split <;> rfl

theorem passed_kind (frame : Frame) : (passed frame).kind = frame.kind := by
  rw [passed]
  split <;> rfl

/-- Bytes of a form are passed over, and the others are left. -/
theorem exists_run {α : Type} {x : Read α} {a : α} {bytes : List UInt8} {form : α → List UInt8 → Prop}
    {next : α → List UInt8 → Reader → Prop} (hx : Consumes Reader.input (bytes.length + 1) x r form next)
    (hform : form a bytes) (hunread : r.input.unread = bytes ++ more) :
    ∃ r', x.run.run r = (.ok a, r') ∧ next a bytes r' ∧ r'.input.Live ∧ r'.input.unread = more := by
  obtain ⟨r', hrun, hadvances, hnext⟩ := hx.complete a bytes more hform (Nat.lt_succ_self _) hunread
  exact ⟨r', hrun, hnext, hadvances.live, List.append_cancel_left (hadvances.unread_eq.symm.trans hunread)⟩

/-- A container as it is when it has been opened. -/
structure Fresh (r : Reader) (kind : FrameKind) (frame : Frame) : Prop where
  kind_eq : frame.kind = kind
  segment_eq : frame.segment = Read.segment r
  index_eq : frame.index = -1

section

variable {word : List UInt8} {state : ReaderState} {kind : FrameKind}

theorem isContainerWord_lengthWord (hl : l.maxDocumentSize < 2147483648) {body : List UInt8}
    (hdepth : frames.length < l.maxNestingDepth) (hbounds : l.Bounds (sized body).length) :
    IsContainerWord l frames (lengthWord (sized body)) := by
  have hword := length_littleEndianBytes 4 (sized body).length
  have hsized : lengthWord (sized body) ++ body = sized body := (sized_eq body).symm
  exact ⟨hdepth, ((declaredLength_eq_iff hl).2 ⟨hsized, hword, hsized ▸ hbounds⟩).1⟩

theorem exists_openContainer_run (h : r.At l frames state) (kind : FrameKind) (hword : IsContainerWord l frames word)
    (hunread : r.input.unread = word ++ more) :
    ∃ frame r', (openContainer kind).run.run r = (.ok (), r') ∧ r.Fresh kind frame ∧ r'.At l (frame :: frames) state ∧
      r'.input.unread = more := by
  obtain ⟨r', hrun, ⟨frame, hframe, hat⟩, -, hmore⟩ := exists_run (openContainer_consumes h kind) hword hunread
  obtain ⟨frame', frames', hframes, hsegment, hindex⟩ := fresh_of_openContainer hrun
  obtain ⟨rfl, rfl⟩ := List.cons.inj (hat.frames_eq.symm.trans hframes)
  exact ⟨frame, r', hrun, ⟨hframe.kind_eq, hsegment, hindex⟩, hat, hmore⟩

theorem exists_enter_run (h : r.At l frames state) (kind : FrameKind) (hword : IsContainerWord l frames word)
    (hunread : r.input.unread = word ++ more) :
    ∃ frame r', (openContainer kind >>= fun _ => modify fun r => { r with state := .type }).run.run r = (.ok (), r') ∧
      r.Fresh kind frame ∧ r'.At l (frame :: frames) .type ∧ r'.input.unread = more := by
  obtain ⟨frame, r', hrun, hfresh, hat, hmore⟩ := exists_openContainer_run h kind hword hunread
  refine ⟨frame, { r' with state := .type }, ?_, hfresh, ⟨hat.live, hat.limits_eq, hat.frames_eq, rfl⟩, hmore⟩
  rw [run_bind_ok hrun, run_modify]

theorem exists_startDocument_run (h : r.At l frames state) (hkind : r.MayEnter kind)
    (hword : IsContainerWord l frames word) (hunread : r.input.unread = word ++ more) :
    ∃ frame r', startDocument.run.run r = (.ok (), r') ∧ r.Fresh kind frame ∧ r'.At l (frame :: frames) .type ∧
      r'.input.unread = more := by
  rw [startDocument_run_eq h hkind]
  exact exists_enter_run h kind hword hunread

theorem exists_startArray_run (h : r.At l frames .value) (htype : r.currentType = some .array)
    (hword : IsContainerWord l frames word) (hunread : r.input.unread = word ++ more) :
    ∃ frame r', startArray.run.run r = (.ok (), r') ∧ r.Fresh .array frame ∧ r'.At l (frame :: frames) .type ∧
      r'.input.unread = more := by
  rw [startArray, run_bind_ok (beginValue_run h htype _)]
  exact exists_enter_run h .array hword hunread

theorem exists_readScopedCode_run (hl : l.maxDocumentSize < 2147483648) (h : r.At l frames .value)
    (htype : r.currentType = some .scopedCode) (hword : IsContainerWord l frames word) {code : String}
    (hbounds : l.Bounds ((Utf8.encode code).length + 1)) (hunread : r.input.unread = word ++ text code ++ more) :
    ∃ frame r', readScopedCode.run.run r = (.ok code, r') ∧ r.Fresh .scopedCode frame ∧
      r'.At l (frame :: frames) .scopeDocument ∧ r'.input.unread = more := by
  rw [List.append_assoc] at hunread
  obtain ⟨frame, r₁, hopen, hfresh, hat, hmore₁⟩ := exists_openContainer_run h .scopedCode hword hunread
  have hl' : r₁.limits.maxDocumentSize < 2147483648 := hat.limits_eq ▸ hl
  obtain ⟨r₂, hcode, hmoved, hlive, hmore₂⟩ :=
    exists_run (stringPayload_gives hat.live hl') ⟨rfl, hat.limits_eq ▸ hbounds⟩ hmore₁
  have hat₂ := hat.moved hmoved hlive
  refine ⟨frame, { r₂ with state := .scopeDocument }, ?_, hfresh, ⟨hlive, hat₂.limits_eq, hat₂.frames_eq, rfl⟩, hmore₂⟩
  rw [readScopedCode, run_bind_ok (beginValue_run h htype _), run_bind_ok hopen, run_bind_ok hcode]
  rfl

end

/-- A name that has been read is kept. -/
theorem currentName_of_readName (hrun : readName.run.run r = (.ok name, r')) : r'.currentName = some name := by
  obtain ⟨_, s, -, hrun⟩ := exists_of_run_bind hrun
  rw [run_bind_ok (run_get s)] at hrun
  by_cases hstate : s.state ≠ .name
  · rw [if_pos hstate] at hrun
    cases hrun
  · rw [if_neg hstate, run_bind_ok (offset_run s)] at hrun
    obtain ⟨bytes, t, -, hrun⟩ := exists_of_run_bind hrun
    cases hdecode : Utf8.decode? bytes with
    | none =>
        rw [hdecode] at hrun
        cases hrun
    | some text =>
        rw [hdecode] at hrun
        cases hrun
        rfl

/-- The value of an element comes next, of a type and under a name. -/
structure AtElement (r : Reader) (l : Limits) (frames : List Frame) (type : ElementType) (name : String) : Prop where
  stands : r.At l frames .value
  type_eq : r.currentType = some type
  segment_eq : Read.segment r = some name

section

variable {type : ElementType}

/-- The tag of an element is passed over. -/
theorem exists_readType_run (h : r.At l (frame :: frames) .type) (htype : type ≠ .endOfDocument)
    (hunread : r.input.unread = type.tag :: more) :
    ∃ r', readType.run.run r = (.ok type, r') ∧ r'.At l (passed frame :: frames) .name ∧
      r'.currentType = some type ∧ r'.input.unread = more := by
  have hunread' : r.input.unread = [type.tag] ++ more := hunread
  obtain ⟨r', hrun, hafter, -, hmore⟩ := exists_run (readType_consumes h) rfl hunread'
  rw [AfterTag, if_neg htype] at hafter
  exact ⟨r', hrun, hafter.1, hafter.2, hmore⟩

/-- The fields of a document go on with the value of the first. -/
theorem exists_readFields_run (h : r.At l (frame :: frames) .type) (harray : frame.kind ≠ .array)
    (hkind : frame.kind ≠ .scopedCode) (htype : type ≠ .endOfDocument) (hname : '\x00' ∉ name.toList) {d : Document}
    (hnew : d.contains name = false) (hunread : r.input.unread = head type (Utf8.encode name) ++ more) (fuel : Nat) :
    ∃ r', r'.AtElement l (frame :: frames) type name ∧ r'.input.unread = more ∧
      (readFieldsWithin (fuel + 1) d).run.run r =
        (readValueWithin fuel type >>= fun v => readFieldsWithin fuel (d.insert name v)).run.run r' := by
  rw [head, List.cons_append, List.cons_append, ← cstring] at hunread
  obtain ⟨r₁, hread, hat, htype₁, hmore⟩ := exists_readType_run h htype hunread
  rw [passed, if_neg harray] at hat
  obtain ⟨r₂, hrun, ⟨hat₂, htype₂⟩, -, hmore₂⟩ := exists_run (readName_consumes hat htype₁) ⟨rfl, hname⟩ hmore
  refine ⟨r₂, ⟨hat₂, htype₂, ?_⟩, hmore₂, ?_⟩
  · rw [Read.segment, hat₂.frames_eq, currentName_of_readName hrun]
    cases hframe : frame.kind with
    | array => exact absurd hframe harray
    | scopedCode => exact absurd hframe hkind
    | document | scopeDocument => simp only [hframe, Option.getD_some]
  · rw [readFieldsWithin, run_bind_ok (offset_run r), run_bind_ok hread, if_neg htype, run_bind_ok hrun, if_neg]
    rw [hnew]
    exact Bool.false_ne_true

/-- The items of an array go on with the first, whose index is one more. -/
theorem exists_readItems_run (h : r.At l (frame :: frames) .type) (harray : frame.kind = .array)
    (htype : type ≠ .endOfDocument) (hname : '\x00' ∉ name.toList) (hindex : toString (frame.index + 1) = name)
    (hunread : r.input.unread = head type (Utf8.encode name) ++ more) (fuel : Nat) :
    ∃ r', r'.AtElement l (passed frame :: frames) type name ∧ r'.input.unread = more ∧
      (readItemsWithin (fuel + 1)).run.run r =
        (readValueWithin fuel type >>= fun v => readItemsWithin fuel >>= fun xs => pure (v :: xs)).run.run r' := by
  rw [head, List.cons_append, List.cons_append] at hunread
  obtain ⟨r₁, hread, hat, htype₁, hmore⟩ := exists_readType_run h htype hunread
  obtain ⟨r₂, hrun, ⟨hat₂, htype₂⟩, -, hmore₂⟩ := exists_run (a := ()) (skipName_consumes hat htype₁)
    ⟨Utf8.encode name, rfl, (Utf8.zero_mem_encode name).not.2 hname⟩ hmore
  refine ⟨r₂, ⟨hat₂, htype₂, ?_⟩, hmore₂, ?_⟩
  · rw [Read.segment, hat₂.frames_eq]
    simp only [passed, harray, reduceIte, hindex]
  · rw [readItemsWithin, run_bind_ok hread, if_neg htype, run_bind_ok hrun]

end

end Reader

/-! ## Values that are read again -/

/-- A value that a writer takes within a number of open containers, and a reader after it. -/
structure Readable (l : Limits) (opened : Nat) (v : Value) : Prop where
  admits : Admits l opened v
  distinct : HasDistinctNames v
  bounds : l.Bounds (value v).length

/-- Named values of which this holds, under different names. -/
structure FieldsReadable (l : Limits) (opened : Nat) (fields : List (String × Value)) : Prop where
  admits : AdmitsElements l opened fields
  distinct : HaveDistinctNames fields
  nodup : (fields.map Prod.fst).Nodup
  bounds : l.Bounds (elements fields).length

/-- Items of which it holds, from an index on. -/
structure ItemsReadable (l : Limits) (opened index : Nat) (xs : List Value) : Prop where
  admits : AdmitsItems l opened xs
  distinct : ItemsHaveDistinctNames xs
  bounds : l.Bounds (items index xs).length

section

variable {opened index : Nat} {v : Value} {xs : List Value} {fields : List (String × Value)} {name code : String}

theorem Limits.Bounds.mono {m n : Nat} (h : l.Bounds n) (hle : m ≤ n) : l.Bounds m := by
  rw [Limits.Bounds] at h ⊢
  omega

theorem Readable.isForm (h : Readable l opened v) : IsForm l opened v (value v) :=
  isForm_value v h.admits h.distinct h.bounds

theorem Readable.document (h : Readable l opened (.document ⟨fields⟩)) :
    opened < l.maxNestingDepth ∧ FieldsReadable l (opened + 1) fields := by
  obtain ⟨hadmits, hdistinct, hbounds⟩ := h
  rw [value, length_container] at hbounds
  exact ⟨hadmits.1, hadmits.2.1, hdistinct.2, hdistinct.1, hbounds.mono (by omega)⟩

theorem Readable.array (h : Readable l opened (.array xs)) :
    opened < l.maxNestingDepth ∧ ItemsReadable l (opened + 1) 0 xs := by
  obtain ⟨hadmits, hdistinct, hbounds⟩ := h
  rw [value, length_container] at hbounds
  exact ⟨hadmits.1, hadmits.2.1, hdistinct, hbounds.mono (by omega)⟩

theorem Readable.scopedCode (h : Readable l opened (.scopedCode code ⟨fields⟩)) :
    opened + 1 < l.maxNestingDepth ∧ l.Bounds ((Utf8.encode code).length + 1) ∧
      l.Bounds (container (elements fields)).length ∧ FieldsReadable l (opened + 2) fields := by
  obtain ⟨hadmits, hdistinct, hbounds⟩ := h
  rw [value, length_sized, List.length_append, length_text, length_container] at hbounds
  rw [length_container]
  exact ⟨hadmits.2.1, hbounds.mono (by omega), hbounds.mono (by omega), hadmits.2.2.1, hdistinct.2, hdistinct.1,
    hbounds.mono (by omega)⟩

theorem FieldsReadable.cons (h : FieldsReadable l opened ((name, v) :: fields)) :
    '\x00' ∉ name.toList ∧ name ∉ fields.map Prod.fst ∧ Readable l opened v ∧ FieldsReadable l opened fields := by
  obtain ⟨hadmits, hdistinct, hnodup, hbounds⟩ := h
  rw [elements, List.length_append, List.length_append] at hbounds
  obtain ⟨hnew, hnodup⟩ := List.nodup_cons.1 hnodup
  exact ⟨hadmits.1, hnew, ⟨hadmits.2.1, hdistinct.1, hbounds.mono (by omega)⟩, hadmits.2.2, hdistinct.2, hnodup,
    hbounds.mono (by omega)⟩

theorem ItemsReadable.cons (h : ItemsReadable l opened index (v :: xs)) :
    Readable l opened v ∧ ItemsReadable l opened (index + 1) xs := by
  obtain ⟨hadmits, hdistinct, hbounds⟩ := h
  rw [items, List.length_append, List.length_append] at hbounds
  exact ⟨⟨hadmits.1, hdistinct.1, hbounds.mono (by omega)⟩, hadmits.2, hdistinct.2, hbounds.mono (by omega)⟩

end

namespace Reader

/-- A value is read and left behind. -/
theorem AtElement.exists_readValue_run {r : Reader} {frame : Frame} {frames : List Frame} {name : String} {v : Value}
    {fuel : Nat} (hl : l.maxDocumentSize < 2147483648) (h : r.AtElement l (frame :: frames) v.elementType name)
    (hv : Readable l (frames.length + 1) v) (hfuel : (value v).length < fuel) {more : List UInt8}
    (hunread : r.input.unread = value v ++ more) :
    ∃ r', (readValueWithin fuel v.elementType).run.run r = (.ok v, r') ∧ r'.At l (frame :: frames) .type ∧
      r'.input.unread = more := by
  obtain ⟨r', hrun, hadvances, hat⟩ := (readValueWithin_consumes fuel hl h.stands h.type_eq).complete v (value v) more
    ⟨rfl, hv.isForm⟩ hfuel hunread
  exact ⟨r', hrun, hat, List.append_cancel_left (hadvances.unread_eq.symm.trans hunread)⟩

end Reader

end Aggregation.Wire
