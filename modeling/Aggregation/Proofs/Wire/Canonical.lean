import Aggregation.Proofs.Wire.ReadingWalks

/-! Bytes that are read and written again. A document has one form, but for the names of the items of arrays, which a
reader passes over and a writer makes from the indices. So bytes come back exactly if a walk through them finds every
item of an array under its index. -/

namespace Aggregation.Wire

open Stepping Layout Read Reader

variable {l : Limits}

mutual

/-- A value that has a form is one that a writer takes where its size is allowed, and no name comes twice in it. -/
theorem IsForm.wellFormed {opened : Nat} (ho : opened ≤ l.maxNestingDepth) : ∀ {v : Value} {bytes : List UInt8},
    IsForm l opened v bytes → IsNulFree v ∧ HasDistinctNames v ∧ opened + depth v ≤ l.maxNestingDepth
  | .document _, _, h => by
    obtain ⟨hdepth, hnodup, body, hbody, -⟩ := h
    obtain ⟨hnul, hdistinct, hle⟩ := hbody.wellFormed hdepth
    exact ⟨hnul, ⟨hnodup, hdistinct⟩, by rw [depth]; omega⟩
  | .array _, _, h => by
    obtain ⟨hdepth, body, hbody, -⟩ := h
    obtain ⟨hnul, hdistinct, hle⟩ := hbody.wellFormed hdepth
    exact ⟨hnul, hdistinct, by rw [depth]; omega⟩
  | .scopedCode _ _, _, h => by
    obtain ⟨hdepth, hnodup, body, hbody, -⟩ := h
    obtain ⟨hnul, hdistinct, hle⟩ := hbody.wellFormed hdepth
    exact ⟨hnul, ⟨hnodup, hdistinct⟩, by rw [depth]; omega⟩
  | .regularExpression _ _, _, h => ⟨h.2, trivial, ho⟩
  | .double _, _, _ | .string _, _, _ | .binary _ _, _, _ | .undefined, _, _ | .objectId _, _, _ | .boolean _, _, _
  | .dateTime _, _, _ | .null, _, _ | .dbPointer _ _, _, _ | .javaScript _, _, _ | .symbol _, _, _ | .int32 _, _, _
  | .timestamp _ _, _, _ | .int64 _, _, _ | .decimal128 _, _, _ | .minKey, _, _ | .maxKey, _, _ =>
    ⟨trivial, trivial, ho⟩

theorem AreForms.wellFormed {opened : Nat} (ho : opened ≤ l.maxNestingDepth) :
    ∀ {fields : List (String × Value)} {bytes : List UInt8}, AreForms l opened fields bytes →
      AreNulFree fields ∧ HaveDistinctNames fields ∧ opened + elementsDepth fields ≤ l.maxNestingDepth
  | [], _, _ => ⟨trivial, trivial, ho⟩
  | (_, _) :: _, _, h => by
    obtain ⟨hname, first, later, hv, hrest, -⟩ := h
    obtain ⟨hnul, hdistinct, hle⟩ := hv.wellFormed ho
    obtain ⟨hnul', hdistinct', hle'⟩ := hrest.wellFormed ho
    exact ⟨⟨hname, hnul, hnul'⟩, ⟨hdistinct, hdistinct'⟩, by rw [elementsDepth]; omega⟩

theorem ItemsAreForms.wellFormed {opened : Nat} (ho : opened ≤ l.maxNestingDepth) :
    ∀ {xs : List Value} {bytes : List UInt8}, ItemsAreForms l opened xs bytes →
      ItemsAreNulFree xs ∧ ItemsHaveDistinctNames xs ∧ opened + itemsDepth xs ≤ l.maxNestingDepth
  | [], _, _ => ⟨trivial, trivial, ho⟩
  | _ :: _, _, h => by
    obtain ⟨name, first, later, -, hv, hrest, -⟩ := h
    obtain ⟨hnul, hdistinct, hle⟩ := hv.wellFormed ho
    obtain ⟨hnul', hdistinct', hle'⟩ := hrest.wellFormed ho
    exact ⟨⟨hnul, hnul'⟩, ⟨hdistinct, hdistinct'⟩, by rw [itemsDepth]; omega⟩

end

/-- A value whose layout has an allowed size is taken by a writer if it has a form at all. -/
theorem IsForm.admits {opened : Nat} {v : Value} {bytes : List UInt8} (h : IsForm l opened v bytes)
    (ho : opened ≤ l.maxNestingDepth) (hsize : l.Bounds (value v).length) : Admits l opened v := by
  obtain ⟨hnul, -, hdepth⟩ := h.wellFormed ho
  exact (admits_iff ho v hsize).2 ⟨hnul, hdepth⟩

/-- A value that has a form has its layout as a form, if its size is allowed. -/
theorem IsForm.layout {opened : Nat} {v : Value} {bytes : List UInt8} (h : IsForm l opened v bytes)
    (ho : opened ≤ l.maxNestingDepth) (hsize : l.Bounds (value v).length) : IsForm l opened v (value v) :=
  isForm_value v (h.admits ho hsize) (h.wellFormed ho).2.1 hsize

theorem sized_inj {body body' : List UInt8} : sized body = sized body' ↔ body = body' := by
  refine ⟨fun h => ?_, fun h => h ▸ rfl⟩
  exact (List.append_inj h (by rw [length_littleEndianBytes, length_littleEndianBytes])).2

theorem container_inj {body body' : List UInt8} : container body = container body' ↔ body = body' := by
  rw [container, container, sized_inj, List.append_left_inj]

theorem Walks.exists_of_append {r r' : Reader} {heard later : List Heard} (h : Walks r (heard ++ later) r') :
    ∃ s, Walks r heard s ∧ Walks s later r' := by
  induction heard generalizing r with
  | nil => exact ⟨r, .nil r, h⟩
  | cons first rest ih =>
      cases h with
      | cons hnext hread hlater =>
          obtain ⟨s, hrest, hlater⟩ := ih hlater
          exact ⟨s, .cons hnext hread hrest, hlater⟩

/-- A longer walk passes through where a shorter one ends. -/
theorem Walks.of_append {r s r' : Reader} {heard later : List Heard} (h : Walks r heard s)
    (hall : Walks r (heard ++ later) r') : Walks s later r' := by
  obtain ⟨t, hheard, hlater⟩ := hall.exists_of_append
  rwa [h.eq_iterate, ← hheard.eq_iterate]

namespace Reader

/-- Whether an item of an array that a reader has come to is named by its index. -/
def NamesItem (r : Reader) : Prop :=
  ∀ frame frames, r.state = .name → r.frames = frame :: frames → frame.kind = .array →
    (readName.run.run r).1 = .ok (toString frame.index)

/-- Whether every item of an array that is come to on a walk is named by its index. -/
def NamesItems (r : Reader) : Prop := ∀ heard r', Walks r heard r' → r'.NamesItem

variable {r r' : Reader} {frame : Frame} {frames : List Frame} {bytes rest : List UInt8}

theorem namesItem_of_kind (hframes : r.frames = frame :: frames) (h : frame.kind ≠ .array) : r.NamesItem := by
  intro frame' frames' _ hframes' harray
  obtain ⟨rfl, rfl⟩ := List.cons.inj (hframes.symm.trans hframes')
  exact absurd harray h

/-- Only where a name is asked for is there something to say about names. -/
theorem namesItem_of_call {call : Call} (hnext : r.next = call) (hcall : call ≠ .readName) : r.NamesItem := by
  intro frame frames hstate
  rw [Reader.next, hstate] at hnext
  exact absurd hnext.symm hcall

/-- Where the next call fails, a walk ends. -/
theorem namesItems_of_fails (hfails : Fails r.next.read r) (h : r.NamesItem) : r.NamesItems := by
  intro heard r' hwalks
  cases hwalks with
  | nil => exact h
  | cons hnext hread =>
      rw [hnext] at hfails
      exact absurd hread hfails.ne_ok

/-- Where the next call succeeds, a walk goes on from there. -/
theorem namesItems_iff {heard : Heard} (h : Walks r [heard] r') : r.NamesItems ↔ r.NamesItem ∧ r'.NamesItems := by
  constructor
  · intro hall
    exact ⟨hall [] r (.nil r), fun later r'' hlater => hall _ _ (h.trans hlater)⟩
  · rintro ⟨hitem, hlater⟩ heard' r'' hwalks
    have hforward : r' = r.forward := h.eq_iterate
    cases hwalks with
    | nil => exact hitem
    | @cons _ s _ first later hnext hread hrest =>
        have hs : s = r.forward := Walks.eq_iterate (.cons hnext hread (.nil s))
        exact hlater later r'' (hforward.trans hs.symm ▸ hrest)

/-- A walk on which no name is asked for leaves names to what follows. -/
theorem namesItems_iff_of_calls {heard : List Heard} (h : Walks r heard r') (hcalls : ∀ x ∈ heard, x.call ≠ .readName) :
    r.NamesItems ↔ r'.NamesItems := by
  induction h with
  | nil r => rfl
  | @cons r s r'' first later hnext hread _ ih =>
      obtain ⟨hfirst, hlater⟩ := List.forall_mem_cons.1 hcalls
      rw [namesItems_iff (.cons hnext hread (.nil s)), ih hlater]
      exact and_iff_right (namesItem_of_call hnext hfirst)

/-- A container has named items exactly if its elements are as they should be and what follows has named items. -/
theorem namesItems_container_iff {opening : Heard} {elements closing : List Heard} {p : Prop}
    (hopened : Walks r [opening] r') (hopening : opening.call ≠ .readName)
    (hclosing : ∀ x ∈ closing, x.call ≠ .readName)
    (helements : r'.NamesItems ↔ p ∧ (Reader.forward^[elements.length] r').NamesItems)
    (hall : p → ∃ r'', Walks r (opening :: elements ++ closing) r'') :
    r.NamesItems ↔ p ∧ (Reader.forward^[(opening :: elements ++ closing).length] r).NamesItems := by
  rw [namesItems_iff_of_calls hopened (List.forall_mem_singleton.2 hopening), helements]
  refine and_congr_right fun hp => ?_
  obtain ⟨r'', hwalks⟩ := hall hp
  obtain ⟨s, hbody, hafter⟩ := (hopened.of_append hwalks).exists_of_append
  rw [← hwalks.eq_iterate, ← hbody.eq_iterate]
  exact namesItems_iff_of_calls hafter hclosing

/-- The name of an item is its index exactly if its bytes are those of the index. -/
theorem namesItem_iff {index : Nat} {name : List UInt8} {type : ElementType} (h : r.At l (frame :: frames) .name)
    (htype : r.currentType = some type) (hkind : frame.kind = .array) (hindex : frame.index = index)
    (hname : 0 ∉ name) (hunread : r.input.unread = name ++ [0] ++ rest) :
    r.NamesItem ↔ name = Utf8.encode (toString index) := by
  have hread : Consumes Reader.input (r.input.unread.length + 1) readName r _ _ := readName_consumes h htype
  have hzero := Utf8.zero_notMem_encode_toString index
  have hitem : r.NamesItem ↔ (readName.run.run r).1 = .ok (toString index) := by
    have hstring : toString frame.index = toString index := by rw [hindex]; rfl
    constructor
    · exact fun hall => hstring ▸ hall frame frames h.state_eq h.frames_eq hkind
    · intro hrun frame' frames' _ hframes _
      obtain ⟨rfl, rfl⟩ := List.cons.inj (h.frames_eq.symm.trans hframes)
      rw [hrun, hstring]
  rw [hitem]
  constructor
  · intro hrun
    obtain ⟨bytes, ⟨rfl, -⟩, hadvances, -⟩ := hread.sound (toString index) _ (Prod.ext hrun rfl)
    have heq := hunread.symm.trans hadvances.unread_eq
    rw [cstring, List.append_assoc, List.append_assoc] at heq
    exact (append_zero_inj hname hzero heq).1
  · rintro rfl
    have hnul : '\x00' ∉ (toString index).toList := by rwa [← Utf8.zero_mem_encode]
    obtain ⟨s, hrun, -⟩ := hread.complete (toString index) _ rest ⟨rfl, hnul⟩
      (by rw [hunread, List.length_append, cstring]; omega) hunread
    rw [hrun]

/-- A container that has been opened has the part in paths that its place gives it, and no item has been come to. -/
theorem fresh_of_openContainer {kind : FrameKind} (h : (openContainer kind).run.run r = (.ok (), r')) :
    ∃ frame frames, r'.frames = frame :: frames ∧ frame.segment = Read.segment r ∧ frame.index = -1 := by
  rw [openContainer, run_bind_ok (run_get r)] at h
  by_cases hdepth : r.limits.maxNestingDepth < r.frames.length + 1
  · simp only [hdepth, reduceIte] at h
    exact absurd h ((fails_throw _ r).bind _).ne_ok
  · simp only [hdepth, reduceIte] at h
    obtain ⟨declared, s, -, hpush⟩ := exists_of_run_bind h
    rw [run_modify] at hpush
    obtain ⟨-, rfl⟩ := Prod.mk.inj hpush
    exact ⟨_, _, rfl, rfl, rfl⟩

theorem index_of_startArray (h : startArray.run.run r = (.ok (), r')) (hat : r'.At l (frame :: frames) .type) :
    frame.index = -1 := by
  obtain ⟨_, s, -, hopen⟩ := exists_of_run_bind h
  obtain ⟨_, t, hpush, hset⟩ := exists_of_run_bind hopen
  obtain ⟨frame', frames', hframes, -, hindex⟩ := fresh_of_openContainer hpush
  rw [run_modify] at hset
  obtain ⟨-, rfl⟩ := Prod.mk.inj hset
  obtain ⟨rfl, rfl⟩ := List.cons.inj (hat.frames_eq.symm.trans hframes)
  exact hindex

/-- A document has named items exactly if its fields are their layout and what follows has named items. -/
theorem namesItems_document_iff (hl : l.maxDocumentSize < 2147483648) {kind : FrameKind} {state : ReaderState}
    {fields : List (String × Value)} {body : List UInt8} (h : r.At l frames state) (hkind : r.MayEnter kind)
    (hdepth : frames.length < l.maxNestingDepth) (hbounds : l.Bounds (container body).length)
    (hunread : r.input.unread = container body ++ rest)
    (hfields : ∀ (frame : Frame) (r' : Reader) (rest : List UInt8), frame.kind ≠ .array →
      r'.At l (frame :: frames) .type → r'.input.unread = body ++ rest →
        (r'.NamesItems ↔ body = elements fields ∧ (Reader.forward^[(heardFields fields).length] r').NamesItems))
    (hall : body = elements fields → ∃ r', Walks r (⟨.startDocument, ()⟩ :: heardFields fields ++ documentEnd) r') :
    r.NamesItems ↔ body = elements fields ∧
      (Reader.forward^[(⟨.startDocument, ()⟩ :: heardFields fields ++ documentEnd).length] r).NamesItems := by
  have hdocument : kind ≠ .array := by
    rcases hkind with ⟨_, rfl⟩ | ⟨_, rfl⟩ | ⟨_, _, rfl⟩ <;> decide
  obtain ⟨word, hword, -, hbytes⟩ := exists_word hl hdepth hbounds
  rw [hbytes, List.append_assoc] at hunread
  obtain ⟨r₁, hopened, frame, hframe, hat⟩ :=
    exists_passes .startDocument () (next_of_mayEnter hkind) (startDocument_consumes h hkind) hword hunread
  have hunread₁ := hopened.unread_eq hunread
  rw [List.append_assoc] at hunread₁
  have hbody := hfields frame r₁ _ (hframe.kind_eq ▸ hdocument) hat hunread₁
  exact namesItems_container_iff hopened.walks nofun (by simp [documentEnd]) hbody hall

/-- A value of which one thing is heard has no items to name. -/
theorem namesItems_scalar_iff (hl : l.maxDocumentSize < 2147483648) {v : Value} {heard : Heard}
    (hheard : heardValue v = [heard]) (hcall : heard.call ≠ .readName) (hform : IsForm l (frames.length + 1) v bytes)
    (hbytes : bytes = value v) (hdepth : frames.length < l.maxNestingDepth) (hsize : l.Bounds bytes.length)
    (h : r.At l (frame :: frames) .value) (htype : r.currentType = some v.elementType)
    (hunread : r.input.unread = bytes ++ rest) :
    r.NamesItems ↔ bytes = value v ∧ (Reader.forward^[(heardValue v).length] r).NamesItems := by
  subst hbytes
  obtain ⟨r', hpasses, -⟩ := exists_passes_value hl v (hform.admits hdepth hsize) hsize h htype hunread
  rw [← hpasses.walks.eq_iterate, and_iff_right rfl]
  apply namesItems_iff_of_calls hpasses.walks
  rw [hheard]
  exact List.forall_mem_singleton.2 hcall

/-- The tag of an element is passed over, and its name comes next. -/
theorem exists_passes_tag {type : ElementType} {name : List UInt8} (h : r.At l (frame :: frames) .type)
    (htype : type ≠ .endOfDocument) (hunread : r.input.unread = head type name ++ rest) :
    ∃ r', Passes r [⟨.readType, type⟩] [type.tag] r' ∧ r'.At l (passed frame :: frames) .name ∧
      r'.currentType = some type ∧ r'.input.unread = name ++ [0] ++ rest := by
  have htag : head type name = [type.tag] ++ (name ++ [0]) := rfl
  rw [htag, List.append_assoc] at hunread
  obtain ⟨r', hpasses, hafter⟩ := exists_passes .readType type (next_of_type h) (readType_consumes h) rfl hunread
  rw [AfterTag, if_neg htype] at hafter
  exact ⟨r', hpasses, hafter.1, hafter.2, hpasses.unread_eq hunread⟩

/-- Where items are named, the item that comes next is named by its index. -/
theorem NamesItems.name_eq {type : ElementType} {index : Nat} {name : List UInt8} (hall : r.NamesItems)
    (h : r.At l (frame :: frames) .type) (htype : type ≠ .endOfDocument) (hkind : frame.kind = .array)
    (hindex : frame.index + 1 = index) (hname : 0 ∉ name) (hunread : r.input.unread = head type name ++ rest) :
    name = Utf8.encode (toString index) := by
  obtain ⟨r', hpasses, hat, hcurrent, hunread'⟩ := exists_passes_tag h htype hunread
  rw [passed, if_pos hkind] at hat
  have hitem : r'.NamesItem := ((namesItems_iff hpasses.walks).1 hall).2 [] r' (.nil r')
  exact (namesItem_iff hat hcurrent hkind hindex hname hunread').1 hitem

/-- The head of an element leaves names to what follows, if within an array it has the index as its name. -/
theorem namesItems_head_iff {type : ElementType} {name : String} (h : r.At l (frame :: frames) .type)
    (htype : type ≠ .endOfDocument) (hname : '\x00' ∉ name.toList)
    (hitem : frame.kind = .array → ∃ index : Nat, frame.index + 1 = index ∧ name = toString index)
    (hunread : r.input.unread = head type (Utf8.encode name) ++ rest)
    (hheard : Passes r (announced type name) bytes r') : r.NamesItems ↔ r'.NamesItems := by
  obtain ⟨s, hpasses, hat, hcurrent, hunread'⟩ := exists_passes_tag h htype hunread
  have hstep : Walks s [⟨.readName, name⟩] r' := hpasses.walks.of_append hheard.walks
  rw [namesItems_iff_of_calls hpasses.walks (by simp), namesItems_iff hstep]
  refine and_iff_right ?_
  by_cases hkind : frame.kind = .array
  · obtain ⟨index, hindex, rfl⟩ := hitem hkind
    rw [passed, if_pos hkind] at hat
    exact (namesItem_iff hat hcurrent hkind hindex (Utf8.zero_notMem_encode_toString index) hunread').2 rfl
  · rw [passed, if_neg hkind] at hat
    exact namesItem_of_kind hat.frames_eq hkind

/-- A value and what follows it are their layouts exactly if both are, since a form of a value shows where it ends. -/
theorem namesItems_append_iff (hl : l.maxDocumentSize < 2147483648) {v : Value} {first later layout : List UInt8}
    {count : Nat} (hform : IsForm l (frames.length + 1) v first) (hdepth : frames.length < l.maxNestingDepth)
    (hsize : l.Bounds (first ++ later).length) (h : r.At l (frame :: frames) .value)
    (htype : r.currentType = some v.elementType) (hunread : r.input.unread = first ++ (later ++ rest))
    (hvalue : r.NamesItems ↔ first = value v ∧ (Reader.forward^[(heardValue v).length] r).NamesItems)
    (hlater : ∀ r', r'.At l (frame :: frames) .type → r'.input.unread = later ++ rest →
      (r'.NamesItems ↔ later = layout ∧ (Reader.forward^[count] r').NamesItems)) :
    r.NamesItems ↔ first ++ later = value v ++ layout ∧
      (Reader.forward^[count + (heardValue v).length] r).NamesItems := by
  rw [List.length_append] at hsize
  rw [hvalue, Function.iterate_add_apply]
  by_cases hfirst : first = value v
  · subst hfirst
    have hbounds : l.Bounds (value v).length := hsize.of_le (Nat.le_add_right _ _)
    obtain ⟨r', hpasses, hat⟩ := exists_passes_value hl v (hform.admits hdepth hbounds) hbounds h htype hunread
    rw [and_iff_right rfl, List.append_right_inj, ← hpasses.walks.eq_iterate]
    exact hlater r' hat (hpasses.unread_eq hunread)
  · -- the value is read from both, and what is read of a value shows where it ends
    refine iff_of_false (fun hall => hfirst hall.1) fun hall => hfirst ?_
    have hlength := congrArg List.length hall.1
    rw [List.length_append, List.length_append] at hlength
    have hlayout := hform.layout hdepth (hsize.of_le (by omega))
    rw [← List.append_assoc] at hunread
    have hunread' := hunread
    rw [hall.1, List.append_assoc] at hunread'
    rw [List.append_assoc] at hunread
    have hread := readValueWithin_consumes (r.input.unread.length + 1) hl h htype
    exact (hread.unique ⟨rfl, hform⟩ ⟨rfl, hlayout⟩ (Nat.lt_succ_self _) hunread hunread').2

mutual

/-- A form of a value has named items exactly if it is the layout and what follows has named items. -/
theorem namesItems_value_iff (hl : l.maxDocumentSize < 2147483648) {frame : Frame} {frames : List Frame} :
    ∀ (v : Value) {bytes rest : List UInt8} {r : Reader}, IsForm l (frames.length + 1) v bytes →
      frames.length < l.maxNestingDepth → l.Bounds bytes.length → r.At l (frame :: frames) .value →
        r.currentType = some v.elementType → r.input.unread = bytes ++ rest →
          (r.NamesItems ↔ bytes = value v ∧ (Reader.forward^[(heardValue v).length] r).NamesItems)
  | .document ⟨fields⟩, bytes, rest, r, hform, hdepth, hsize, h, htype, hunread => by
    have hadmits := hform.admits (l := l) hdepth
    obtain ⟨hdeeper, -, body, hbody, rfl, -⟩ : (frame :: frames).length < l.maxNestingDepth ∧ _ := hform
    change AreForms l ((frame :: frames).length + 1) fields body at hbody
    rw [value, container_inj, heardValue]
    apply namesItems_document_iff hl h (.inr (.inr ⟨h.state_eq, htype, rfl⟩)) hdeeper hsize hunread
    · intro frame' r' rest' hkind hat hunread'
      have hbounds : l.Bounds body.length := hsize.of_le (by rw [length_container]; omega)
      exact namesItems_fields_iff hl fields hbody hdeeper hbounds hkind hat hunread'
    · rintro rfl
      obtain ⟨r', hpasses, -⟩ := exists_passes_value hl (.document ⟨fields⟩) (hadmits hsize) hsize h htype hunread
      exact ⟨r', hpasses.walks⟩
  | .array xs, bytes, rest, r, hform, hdepth, hsize, h, htype, hunread => by
    have hadmits := hform.admits (l := l) hdepth
    obtain ⟨hdeeper, body, hbody, rfl, -⟩ : (frame :: frames).length < l.maxNestingDepth ∧ _ := hform
    obtain ⟨word, hword, -, hbytes⟩ := exists_word hl hdeeper hsize
    have hunread' : r.input.unread = word ++ (body ++ [0] ++ rest) := by
      rw [hunread, hbytes, List.append_assoc]
    obtain ⟨r₁, hopened, frame', hframe, hat⟩ :=
      exists_passes .startArray () (next_of_value h htype) (startArray_consumes h htype) hword hunread'
    have hunread₁ := hopened.unread_eq hunread'
    rw [List.append_assoc] at hunread₁
    have hindex : frame'.index = -1 := by
      obtain ⟨s, hrun, hs⟩ : ∃ s, startArray.run.run r = (.ok (), s) ∧ s = r₁ := by
        cases hopened.walks with
        | cons hnext hread hnil =>
            cases hnil
            exact ⟨_, hread, rfl⟩
      exact index_of_startArray (hs ▸ hrun) hat
    change ItemsAreForms l ((frame :: frames).length + 1) xs body at hbody
    rw [value, container_inj, heardValue]
    apply namesItems_container_iff hopened.walks nofun (by simp [arrayEnd])
    · have hbounds : l.Bounds body.length := hsize.of_le (by rw [length_container]; omega)
      exact namesItems_items_iff hl xs 0 hbody hdeeper hbounds hframe.kind_eq (by rw [hindex]; rfl) hat hunread₁
    · rintro rfl
      obtain ⟨r', hpasses, -⟩ := exists_passes_value hl (.array xs) (hadmits hsize) hsize h htype hunread
      exact ⟨r', hpasses.walks⟩
  | .scopedCode code ⟨fields⟩, bytes, rest, r, hform, hdepth, hsize, h, htype, hunread => by
    have hadmits := hform.admits (l := l) hdepth
    obtain ⟨hdeeper, -, body, hbody, rfl, -⟩ := hform
    have hall : body = elements fields → ∃ r', Walks r (heardValue (.scopedCode code ⟨fields⟩)) r' := by
      rintro rfl
      obtain ⟨r', hpasses, -⟩ :=
        exists_passes_value hl (.scopedCode code ⟨fields⟩) (hadmits hsize) hsize h htype hunread
      exact ⟨r', hpasses.walks⟩
    have hfour := length_littleEndianBytes 4 ((text code ++ container body).length + 4)
    obtain ⟨hword, -⟩ := (declaredLength_eq_iff hl).2 ⟨rfl, hfour, hsize⟩
    rw [sized, ← List.append_assoc, List.append_assoc] at hunread
    rw [length_sized, List.length_append, length_container] at hsize
    obtain ⟨r₁, hcode, word, around, -, -, -, hat⟩ :=
      exists_passes .readScopedCode code (next_of_value h htype) (readScopedCode_consumes hl h htype)
        ⟨_, ⟨Nat.lt_of_succ_lt hdeeper, hword⟩, hsize.of_le (by rw [length_text]; omega), rfl⟩ hunread
    have hforward : r₁ = r.forward := hcode.walks.eq_iterate
    change AreForms l ((around :: frame :: frames).length + 1) fields body at hbody
    rw [value, sized_inj, List.append_right_inj, container_inj, heardValue, List.cons_append, List.length_cons,
      Function.iterate_succ_apply, ← hforward, namesItems_iff_of_calls hcode.walks (by simp)]
    apply namesItems_document_iff hl hat (.inr (.inl ⟨hat.state_eq, rfl⟩)) hdeeper _ (hcode.unread_eq hunread)
    · intro frame' r' rest' hkind hat' hunread'
      exact namesItems_fields_iff hl fields hbody hdeeper (hsize.of_le (by omega)) hkind hat' hunread'
    · intro hbody
      obtain ⟨r', hwalks⟩ := hall hbody
      exact ⟨r', hcode.walks.of_append hwalks⟩
    · exact hsize.of_le (by rw [length_container]; omega)
  | .string _, _, _, _, hform, hdepth, hsize, h, htype, hunread
  | .binary _ _, _, _, _, hform, hdepth, hsize, h, htype, hunread
  | .regularExpression _ _, _, _, _, hform, hdepth, hsize, h, htype, hunread
  | .dbPointer _ _, _, _, _, hform, hdepth, hsize, h, htype, hunread
  | .javaScript _, _, _, _, hform, hdepth, hsize, h, htype, hunread
  | .symbol _, _, _, _, hform, hdepth, hsize, h, htype, hunread =>
    namesItems_scalar_iff hl rfl nofun hform hform.1 hdepth hsize h htype hunread
  | .double _, _, _, _, hform, hdepth, hsize, h, htype, hunread
  | .undefined, _, _, _, hform, hdepth, hsize, h, htype, hunread
  | .objectId _, _, _, _, hform, hdepth, hsize, h, htype, hunread
  | .boolean _, _, _, _, hform, hdepth, hsize, h, htype, hunread
  | .dateTime _, _, _, _, hform, hdepth, hsize, h, htype, hunread
  | .null, _, _, _, hform, hdepth, hsize, h, htype, hunread
  | .int32 _, _, _, _, hform, hdepth, hsize, h, htype, hunread
  | .timestamp _ _, _, _, _, hform, hdepth, hsize, h, htype, hunread
  | .int64 _, _, _, _, hform, hdepth, hsize, h, htype, hunread
  | .decimal128 _, _, _, _, hform, hdepth, hsize, h, htype, hunread
  | .minKey, _, _, _, hform, hdepth, hsize, h, htype, hunread
  | .maxKey, _, _, _, hform, hdepth, hsize, h, htype, hunread =>
    namesItems_scalar_iff hl rfl nofun hform hform hdepth hsize h htype hunread

theorem namesItems_fields_iff (hl : l.maxDocumentSize < 2147483648) {frame : Frame} {frames : List Frame} :
    ∀ (fields : List (String × Value)) {bytes rest : List UInt8} {r : Reader},
      AreForms l (frames.length + 1) fields bytes → frames.length < l.maxNestingDepth → l.Bounds bytes.length →
        frame.kind ≠ .array → r.At l (frame :: frames) .type → r.input.unread = bytes ++ rest →
          (r.NamesItems ↔ bytes = elements fields ∧
            (Reader.forward^[(heardFields fields).length] r).NamesItems)
  | [], bytes, rest, r, hforms, _, _, _, _, _ => (and_iff_right hforms).symm
  | (name, v) :: others, bytes, rest, r, hforms, hdepth, hsize, hkind, h, hunread => by
    obtain ⟨hname, first, later, hv, hothers, rfl⟩ := hforms
    have htype := elementType_ne_endOfDocument v
    rw [List.append_assoc, List.length_append] at hsize
    rw [List.append_assoc, List.append_assoc] at hunread
    obtain ⟨r₂, hhead, hat, hcurrent⟩ := exists_passes_head h htype hname hunread
    rw [passed, if_neg hkind] at hat
    have hunread₂ := hhead.unread_eq hunread
    have hlength : (heardFields ((name, v) :: others)).length =
        (heardFields others).length + (heardValue v).length + (announced v.elementType name).length := by
      rw [heardFields, List.length_append, List.length_append]
      omega
    rw [namesItems_head_iff h htype hname (fun harray => absurd harray hkind) hunread hhead, elements,
      List.append_assoc, List.append_assoc, List.append_right_inj, hlength, Function.iterate_add_apply,
      ← hhead.walks.eq_iterate]
    apply namesItems_append_iff hl hv hdepth (hsize.of_le (by omega)) hat hcurrent hunread₂
    · exact namesItems_value_iff hl v hv hdepth (hsize.of_le (by rw [List.length_append]; omega)) hat hcurrent hunread₂
    · intro r₃ hat₃ hunread₃
      exact namesItems_fields_iff hl others hothers hdepth (hsize.of_le (by rw [List.length_append]; omega)) hkind hat₃
        hunread₃

theorem namesItems_items_iff (hl : l.maxDocumentSize < 2147483648) {frames : List Frame} :
    ∀ (xs : List Value) (index : Nat) {frame : Frame} {bytes rest : List UInt8} {r : Reader},
      ItemsAreForms l (frames.length + 1) xs bytes → frames.length < l.maxNestingDepth → l.Bounds bytes.length →
        frame.kind = .array → frame.index + 1 = index → r.At l (frame :: frames) .type →
          r.input.unread = bytes ++ rest →
            (r.NamesItems ↔ bytes = items index xs ∧
              (Reader.forward^[(heardItems index xs).length] r).NamesItems)
  | [], _, _, bytes, rest, r, hforms, _, _, _, _, _, _ => (and_iff_right hforms).symm
  | v :: others, index, frame, bytes, rest, r, hforms, hdepth, hsize, hkind, hindex, h, hunread => by
    obtain ⟨name, first, later, hname, hv, hothers, rfl⟩ := hforms
    have htype := elementType_ne_endOfDocument v
    rw [List.append_assoc, List.length_append] at hsize
    rw [List.append_assoc, List.append_assoc] at hunread
    rw [items, List.append_assoc, List.append_assoc]
    by_cases hitem : name = Utf8.encode (toString index)
    · subst hitem
      have hnul : '\x00' ∉ (toString index).toList := by rwa [← Utf8.zero_mem_encode]
      obtain ⟨r₂, hhead, hat, hcurrent⟩ := exists_passes_head h htype hnul hunread
      rw [passed, if_pos hkind] at hat
      have hunread₂ := hhead.unread_eq hunread
      have hlength : (heardItems index (v :: others)).length = (heardItems (index + 1) others).length +
          (heardValue v).length + (announced v.elementType (toString index)).length := by
        rw [heardItems, List.length_append, List.length_append]
        omega
      rw [namesItems_head_iff h htype hnul (fun _ => ⟨index, hindex, rfl⟩) hunread hhead, List.append_right_inj,
        hlength, Function.iterate_add_apply, ← hhead.walks.eq_iterate]
      apply namesItems_append_iff hl hv hdepth (hsize.of_le (by omega)) hat hcurrent hunread₂
      · exact namesItems_value_iff hl v hv hdepth (hsize.of_le (by rw [List.length_append]; omega)) hat hcurrent
          hunread₂
      · intro r₃ hat₃ hunread₃
        have hkind' : Frame.kind { frame with index := frame.index + 1 } = .array := hkind
        exact namesItems_items_iff hl others (index + 1) hothers hdepth
          (hsize.of_le (by rw [List.length_append]; omega)) hkind' (congrArg (· + 1) hindex) hat₃ hunread₃
    · -- a name that is not the index need not be text, so it is compared byte by byte
      refine iff_of_false (fun hall => hitem (hall.name_eq h htype hkind hindex hname hunread)) fun hall => hitem ?_
      have heq : name ++ [0] ++ (first ++ later) = Utf8.encode (toString index) ++ [0] ++ _ := (List.cons.inj hall.1).2
      rw [List.append_assoc, List.append_assoc] at heq
      exact (append_zero_inj hname (Utf8.zero_notMem_encode_toString index) heq).1

end

/-- Between documents, where no bytes are left, a walk ends. -/
theorem namesItems_of_nil (h : r.Idle l) (hnil : r.input.unread = []) : r.NamesItems := by
  obtain ⟨state, hstate, hat⟩ := h
  have henter : r.MayEnter .document := .inl ⟨hat.state_eq ▸ hstate, rfl⟩
  have hnext := next_of_mayEnter henter
  refine namesItems_of_fails ?_ (namesItem_of_call hnext nofun)
  rw [hnext]
  rcases hrun : startDocument.run.run r with ⟨e | a, r'⟩
  · exact ⟨e, r', hrun⟩
  · have hread : Consumes Reader.input 0 startDocument r _ _ := startDocument_consumes hat henter
    obtain ⟨word, ⟨-, n, rfl, -⟩, hadvances, -⟩ := hread.sound a r' hrun
    have hlength := congrArg List.length (hnil.symm.trans hadvances.unread_eq)
    rw [List.length_append, length_littleEndianBytes, List.length_nil] at hlength
    omega

/-- A form of a document at the top has named items exactly if it is the layout. -/
theorem namesItems_iff_eq_document (hl : l.maxDocumentSize < 2147483648) (hfault : l.fault? = none) {d : Document}
    (h : r.Idle l) (hform : IsDocumentForm l d r.input.unread) :
    r.NamesItems ↔ r.input.unread = document d := by
  obtain ⟨fields⟩ := d
  obtain ⟨state, hstate, hat⟩ := h
  have henter : r.MayEnter .document := .inl ⟨hat.state_eq ▸ hstate, rfl⟩
  have hadmits := hform.admits (Nat.zero_le _)
  obtain ⟨hdepth, -, body, hbody, hbytes, hbounds⟩ := hform
  change AreForms l (([] : List Frame).length + 1) fields body at hbody
  rw [hbytes] at hbounds
  have hunread : r.input.unread = container body ++ [] := hbytes.trans (List.append_nil _).symm
  have hall : body = elements fields → ∃ r', Passes r (heardDocument ⟨fields⟩) (document ⟨fields⟩) r' ∧ r'.Idle l := by
    rintro rfl
    exact exists_passes_heardDocument hl hfault (hadmits hbounds) ⟨state, hstate, hat⟩ hunread
  have hiff : r.NamesItems ↔ body = elements fields ∧
      (Reader.forward^[(heardDocument ⟨fields⟩).length] r).NamesItems := by
    apply namesItems_document_iff hl hat henter hdepth hbounds hunread
    · intro frame r' rest' hkind hat' hunread'
      exact namesItems_fields_iff hl fields hbody hdepth (hbounds.of_le (by rw [length_container]; omega)) hkind hat'
        hunread'
    · intro hbody
      obtain ⟨r', hpasses, -⟩ := hall hbody
      exact ⟨r', hpasses.walks⟩
  rw [hiff, hbytes, document, container_inj]
  refine and_iff_left_of_imp fun hbody => ?_
  obtain ⟨r', hpasses, hidle⟩ := hall hbody
  rw [← hpasses.walks.eq_iterate]
  subst hbody
  exact namesItems_of_nil hidle (hpasses.unread_eq hunread)

end Reader

/-- A document is encoded if a writer takes it, as its layout. -/
theorem encode_eq_ok_iff (d : Document) (bytes : List UInt8) :
    (encode d).result = .ok bytes ↔ Admits {} 0 (.document d) ∧ bytes = document d := by
  have hidle : (Writer.ofSink {} {}).Idle := Writer.idle_ofSink rfl {}
  rw [encode]
  rcases Writer.writeDocument_decides hidle d with ⟨hadmits, hrun⟩ | ⟨hadmits, e, w, hrun⟩
  · have hreceived : ((Writer.ofSink {} {}).sent (document d)).close.sink.received.toList = document d := by
      simp [Writer.close, Writer.sent, Writer.ofSink]
    simp only [hrun, Except.map, hreceived, Except.ok.injEq]
    exact ⟨fun heq => ⟨hadmits, heq.symm⟩, fun h => h.2.symm⟩
  · simp only [hrun, Except.map, reduceCtorEq, false_iff]
    exact fun h => hadmits h.1

/-- Bytes that are read as a document are written again as they were exactly if a walk through them finds every item of
an array named by its index; and what is written for a document that has been read is read as the same document. -/
theorem encode_of_decode (bytes : List UInt8) (d : Document) (hdecode : (decode bytes).result = .ok d) :
    ((Reader.ofSource (.ofBytes bytes)).NamesItems ↔ (encode d).result = .ok bytes) ∧
      ∀ bytes', (encode d).result = .ok bytes' →
        ∃ d', (decode bytes').result = .ok d' ∧ Record.same d' d = true := by
  have hform := (decode_eq_ok_iff bytes d).1 hdecode
  obtain ⟨hnul, hdistinct, hdepth⟩ := hform.wellFormed (Nat.zero_le _)
  constructor
  · obtain ⟨hcontent, hending⟩ := Source.content_ofBytes bytes (by decide : 0 < Source.readSize) false
    have hunread : (Reader.ofSource (.ofBytes bytes)).input.unread = bytes := hcontent
    have hidle := idle_ofSource hending {} 0
    rw [namesItems_iff_eq_document (by decide) (by decide) hidle (hunread.symm ▸ hform), hunread, encode_eq_ok_iff]
    refine (and_iff_right_of_imp ?_).symm
    rintro rfl
    obtain ⟨-, -, -, -, -, hbounds⟩ := id hform
    exact hform.admits (Nat.zero_le _) hbounds
  · rintro bytes' hencode
    obtain ⟨hadmits, rfl⟩ := (encode_eq_ok_iff d bytes').1 hencode
    refine ⟨d, (decode_eq_ok_iff _ d).2 ?_, Record.same_iff_eq.2 rfl⟩
    exact isForm_value _ hadmits hdistinct ((admits_document_iff (by decide) d).1 hadmits).2.2

/-- A NaN and a legacy binary in an array, read from the layout, and from bytes in which the second item has as its name
a byte that is no text. -/
theorem encode_of_decode_array :
    let d : Document := ⟨[("a", .array [.double ⟨0x7FF8000000000001⟩, .binary 2 [7]])]⟩
    let bytes (name : UInt8) : List UInt8 :=
      [37, 0, 0, 0, 4, 97, 0, 29, 0, 0, 0, 1, 48, 0, 1, 0, 0, 0, 0, 0, 248, 127, 5, name, 0, 5, 0, 0, 0, 2, 1, 0, 0, 0,
        7, 0, 0]
    (decode (bytes 49)).result = .ok d ∧ (decode (bytes 255)).result = .ok d ∧
      (encode d).result = .ok (bytes 49) ∧ ¬(Reader.ofSource (.ofBytes (bytes 255))).NamesItems ∧
        ∃ d', (decode (bytes 49)).result = .ok d' ∧ Record.same d' d = true := by
  intro d bytes
  have hread (name : UInt8) (h : (decode (bytes name)).result.toOption = some d) :
      (decode (bytes name)).result = .ok d := by
    rcases hresult : (decode (bytes name)).result with e | d'
    · rw [hresult] at h
      cases h
    · rw [hresult] at h
      exact congrArg Except.ok (Option.some.inj h)
  have hnamed : (decode (bytes 49)).result = .ok d := hread 49 (by decide +kernel)
  have hunnamed : (decode (bytes 255)).result = .ok d := hread 255 (by decide +kernel)
  have hform := (decode_eq_ok_iff _ d).1 hnamed
  have hencode : (encode d).result = .ok (bytes 49) :=
    (encode_eq_ok_iff d _).2 ⟨hform.admits (Nat.zero_le _) (by rw [Limits.Bounds]; decide), by decide⟩
  refine ⟨hnamed, hunnamed, hencode, fun hall => ?_, (encode_of_decode _ d hnamed).2 _ hencode⟩
  have hother := (encode_of_decode _ d hunnamed).1.1 hall
  rw [hencode] at hother
  exact absurd (Except.ok.inj hother) (by decide)

end Aggregation.Wire
