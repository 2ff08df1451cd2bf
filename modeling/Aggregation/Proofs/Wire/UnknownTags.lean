import Aggregation.Proofs.Wire.Approach
import Aggregation.Proofs.Wire.Tiling

/-! Tags that are not known. Wherever in a document a tag is none, reading comes to it past everything that stands in
front of it, and says which tag it is and the names that lead to its element: those of the containers that are open, as
they were noted when these were opened, and that of the element itself. -/

namespace Aggregation.Wire

open Stepping Layout Read Reader

variable {l : Limits}

namespace Frame

/-- The names that open containers have in paths, the outermost first. -/
def names (frames : List Frame) : List String := (frames.filterMap Frame.segment).reverse

variable {frame : Frame} {frames : List Frame}

theorem names_cons_of_some {name : String} (h : frame.segment = some name) :
    names (frame :: frames) = names frames ++ [name] := by
  rw [names, List.filterMap_cons_some h, List.reverse_cons, names]

theorem names_cons_of_none (h : frame.segment = none) : names (frame :: frames) = names frames := by
  rw [names, List.filterMap_cons_none h, names]

theorem names_congr {other : Frame} (h : other.segment = frame.segment) :
    names (other :: frames) = names (frame :: frames) := by
  cases hsegment : frame.segment with
  | none => rw [names_cons_of_none hsegment, names_cons_of_none (h.trans hsegment)]
  | some name => rw [names_cons_of_some hsegment, names_cons_of_some (h.trans hsegment)]

end Frame

/-- What is said of a tag that is not known: the tag, and the names that lead to its element within open containers. -/
def unknownAt (tag : UInt8) (frames : List Frame) (names : List String) : WireError :=
  .unknownType tag (".".intercalate (Frame.names frames ++ names))

/-- A container that has a name in paths. -/
theorem unknownAt_cons {tag : UInt8} {frame : Frame} {frames : List Frame} {name : String} (names : List String)
    (h : frame.segment = some name) : unknownAt tag (frame :: frames) names = unknownAt tag frames (name :: names) := by
  rw [unknownAt, Frame.names_cons_of_some h, List.append_assoc, List.singleton_append, unknownAt]

/-- A container that has none. -/
theorem unknownAt_cons_of_none {tag : UInt8} {frame : Frame} {frames : List Frame} (names : List String)
    (h : frame.segment = none) : unknownAt tag (frame :: frames) names = unknownAt tag frames names := by
  rw [unknownAt, Frame.names_cons_of_none h, unknownAt]

namespace Read

variable {α β : Type} {x : Read α} {f : α → Read β} {r r' : Reader} {e : WireError} {a : α}

/-- A step ends with an error. -/
def Stops (e : WireError) (x : Read α) (r : Reader) : Prop := ∃ t, x.run.run r = (.error e, t)

theorem Stops.bind (h : Stops e x r) (f : α → Read β) : Stops e (x >>= f) r := by
  obtain ⟨t, ht⟩ := h
  exact ⟨t, run_bind_error ht⟩

theorem stops_bind_ok (hx : x.run.run r = (.ok a, r')) (hf : Stops e (f a) r') : Stops e (x >>= f) r := by
  rwa [Stops, run_bind_ok hx]

end Read

namespace Reader

variable {r r' : Reader} {frame : Frame} {frames : List Frame} {tag : UInt8} {name : String} {rest more : List UInt8}

/-- The name of an element whose tag is not known, in a container that has elements. -/
theorem offendingName_run_of_cstring (h : r.At l (frame :: frames) .type) (hkind : frame.kind ≠ .scopedCode)
    (hname : '\x00' ∉ name.toList) (hindex : frame.kind = .array → toString frame.index = name)
    (hunread : r.input.unread = cstring name ++ rest) :
    ∃ t, offendingName.run.run r = (.ok name, t) ∧ t.frames = r.frames := by
  have hbytes : r.input.unread = Utf8.encode name ++ 0 :: rest := by
    rw [hunread, cstring, List.append_assoc]
    rfl
  obtain ⟨input, hrun, -⟩ := Replay.cstring_run_of_prefix h.live hbytes ((Utf8.zero_mem_encode name).not.2 hname)
  rw [offendingName_run, h.frames_eq]
  cases hframe : frame.kind with
  | array => exact ⟨r, by simp only [hframe, hindex hframe], h.frames_eq⟩
  | scopedCode => exact absurd hframe hkind
  | document | scopeDocument =>
      refine ⟨{ r with input }, ?_, h.frames_eq⟩
      simp only [hframe, onInput_run, hrun, Except.toOption, Option.map_some, Option.getD_some, Utf8.lossy_encode]

/-- A tag that is not known is refused, with the name of its element. -/
theorem stops_elementTag (h : r.At l (frame :: frames) .type) (hkind : frame.kind ≠ .scopedCode)
    (htag : ElementType.ofTag? tag = none) (hname : '\x00' ∉ name.toList)
    (hindex : frame.kind = .array → toString frame.index = name) (hunread : r.input.unread = cstring name ++ rest) :
    Stops (unknownAt tag (frame :: frames) [name]) (elementTag tag) r := by
  obtain ⟨t, hrun, hframes⟩ := offendingName_run_of_cstring h hkind hname hindex hunread
  have hpath : t.elementPath name = ".".intercalate (Frame.names (frame :: frames) ++ [name]) := by
    rw [elementPath, segments, hframes, h.frames_eq, Frame.names]
  rw [elementTag, htag]
  refine stops_bind_ok hrun (stops_bind_ok (run_get t) ?_)
  rw [hpath]
  exact stops_bind_ok (run_modify _ t) ⟨_, rfl⟩

/-- Reading the type of an element whose tag is not known. -/
theorem stops_readType (h : r.At l (frame :: frames) .type) (hkind : frame.kind ≠ .scopedCode)
    (htag : ElementType.ofTag? tag = none) (hname : '\x00' ∉ name.toList)
    (hindex : frame.kind = .array → toString (frame.index + 1) = name)
    (hunread : r.input.unread = tag :: (cstring name ++ rest)) :
    Stops (unknownAt tag (frame :: frames) [name]) readType r := by
  obtain ⟨input, hbyte, hadvances⟩ := Replay.byte_run h.live hunread
  have hrun : (onInput Replay.byte).run.run r = (.ok tag, { r with input }) := by rw [onInput_run, hbyte]
  have hzero : ¬tag = 0 := by
    rintro rfl
    cases htag
  have hrest : input.unread = cstring name ++ rest :=
    List.append_cancel_left (hadvances.unread_eq.symm.trans hunread)
  refine stops_bind_ok (ensureOpen_run h (by decide)) (stops_bind_ok (run_get r) ?_)
  simp only [h.state_eq]
  refine stops_bind_ok hrun (stops_bind_ok (run_get _) ?_)
  simp only [h.frames_eq]
  rw [if_neg hzero, unknownAt, ← Frame.names_congr (passed_segment frame)]
  have hkind' : (passed frame).kind ≠ .scopedCode := by rwa [passed_kind]
  by_cases harray : frame.kind = .array
  · rw [if_pos harray]
    refine stops_bind_ok (run_modify _ _)
      (stops_elementTag ⟨hadvances.live, h.limits_eq, ?_, h.state_eq⟩ hkind' htag hname (fun _ => ?_) hrest)
    · rw [passed, if_pos harray]
    · rw [passed, if_pos harray]
      exact hindex harray
  · rw [if_neg harray]
    refine stops_elementTag ⟨hadvances.live, h.limits_eq, ?_, h.state_eq⟩ hkind' htag hname (fun heq => ?_) hrest
    · rw [passed, if_neg harray]
    · exact absurd (passed_kind frame ▸ heq) harray

end Reader

namespace Site

variable {s : Site} {name : String} {v : Value} {type : ElementType} {fuel : Nat}

/-- What stands in front of an element; then a tag in the place of its own, its name, and anything. -/
def retagged (s : Site) (tag : UInt8) (rest : List UInt8) : List UInt8 :=
  s.before ++ tag :: (cstring s.name ++ rest)

/-- Another tag is set in bytes in which an element stands. -/
theorem StandsIn.exists_set_eq {bytes : List UInt8} (h : s.StandsIn bytes) (tag : UInt8) :
    ∃ rest, bytes.set s.before.length tag = s.retagged tag rest := by
  obtain ⟨after, rfl⟩ := h
  refine ⟨Layout.value s.value ++ after, ?_⟩
  rw [List.set_append_right _ _ (Nat.le_refl _), Nat.sub_self, retagged]
  simp only [head, cstring, List.cons_append, List.set_cons_zero, List.append_assoc]

theorem lt_of_within (h : (s.within name (head type (Utf8.encode name))).before.length < fuel + 1) :
    s.before.length + 1 < fuel := by
  simp only [within, head, List.length_append, List.length_cons, List.length_nil] at h
  omega

theorem lt_of_front {front : List UInt8} (hfront : 0 < front.length)
    (h : (s.behind front).before.length + 1 < fuel + 2) : s.before.length < fuel := by
  simp only [behind, List.length_append] at h
  omega

theorem lt_of_behind (h : (s.behind (head type (Utf8.encode name) ++ Layout.value v)).before.length < fuel + 1) :
    (Layout.value v).length < fuel ∧ s.before.length < fuel := by
  simp only [behind, head, List.length_append, List.length_cons, List.length_nil] at h
  omega

end Site

namespace Reader

/-- An element is in front of a reader, with another tag and anything after its name. -/
def Faces (r : Reader) (tag : UInt8) (s : Site) : Prop := ∃ rest, r.input.unread = s.retagged tag rest

section

variable {r : Reader} {tag : UInt8} {s : Site} {name : String} {front : List UInt8}

theorem Faces.within (h : r.Faces tag (s.within name front)) :
    ∃ more, r.input.unread = front ++ more ∧ ∀ r' : Reader, r'.input.unread = more → r'.Faces tag s := by
  obtain ⟨rest, hrest⟩ := h
  exact ⟨_, hrest.trans (List.append_assoc _ _ _), fun _ hmore => ⟨rest, hmore⟩⟩

theorem Faces.behind (h : r.Faces tag (s.behind front)) :
    ∃ more, r.input.unread = front ++ more ∧ ∀ r' : Reader, r'.input.unread = more → r'.Faces tag s := by
  obtain ⟨rest, hrest⟩ := h
  exact ⟨_, hrest.trans (List.append_assoc _ _ _), fun _ hmore => ⟨rest, hmore⟩⟩

end

/-- A document is entered, and reading stops among its fields. -/
theorem stops_readDocument {r : Reader} {frames : List Frame} {state : ReaderState} {kind : FrameKind} {e : WireError}
    {word more : List UInt8} {fuel : Nat} (h : r.At l frames state) (hkind : r.MayEnter kind)
    (hword : IsContainerWord l frames word) (hunread : r.input.unread = word ++ more)
    (hfields : ∀ frame r', r.Fresh kind frame → frame.kind ≠ .array → frame.kind ≠ .scopedCode →
      r'.At l (frame :: frames) .type → r'.input.unread = more → Stops e (readFieldsWithin fuel .empty) r') :
    Stops e (readDocumentWithin (fuel + 1)) r := by
  obtain ⟨frame, r', hrun, hfresh, hat, hmore⟩ := exists_startDocument_run h hkind hword hunread
  have hdocument : kind ≠ .array ∧ kind ≠ .scopedCode := by
    rcases hkind with ⟨-, rfl⟩ | ⟨-, rfl⟩ | ⟨-, -, rfl⟩ <;> decide
  rw [← hfresh.kind_eq] at hdocument
  exact stops_bind_ok hrun ((hfields frame r' hfresh hdocument.1 hdocument.2 hat hmore).bind _)

/-- Reading goes on with an element. If it stops at the tag of the element, in its value and in what comes after it, it
stops at every place in these. -/
theorem stops_element {α : Type} {x : Read α} (next : Value → Read α) (hl : l.maxDocumentSize < 2147483648) {r : Reader}
    {frame : Frame} {frames : List Frame} {tag : UInt8} {name : String} {v : Value} {inner later : List Site}
    {s : Site} {fuel : Nat} (hv : Readable l (frames.length + 1) v) (hs : s ∈ Site.element name v inner later)
    (hfuel : s.before.length < fuel + 1) (hfaces : r.Faces tag s)
    (htag : ∀ more, r.input.unread = tag :: (cstring name ++ more) → Stops (unknownAt tag (frame :: frames) [name]) x r)
    (hcomes : ∀ more, r.input.unread = head v.elementType (Utf8.encode name) ++ more →
      ∃ r', r'.AtElement l (frame :: frames) v.elementType name ∧ r'.input.unread = more ∧
        x.run.run r = (readValueWithin fuel v.elementType >>= next).run.run r')
    (hinner : ∀ t ∈ inner, ∀ r' : Reader, r'.AtElement l (frame :: frames) v.elementType name → r'.Faces tag t →
      t.before.length + 1 < fuel →
        Stops (unknownAt tag (frame :: frames) (name :: t.names)) (readValueWithin fuel v.elementType) r')
    (hlater : ∀ t ∈ later, ∀ r' : Reader, r'.At l (frame :: frames) .type → r'.Faces tag t → t.before.length < fuel →
      Stops (unknownAt tag (frame :: frames) t.names) (next v) r') :
    Stops (unknownAt tag (frame :: frames) s.names) x r := by
  rcases Site.mem_element.1 hs with rfl | ⟨t, ht, rfl⟩ | ⟨t, ht, rfl⟩
  · obtain ⟨more, hmore⟩ := hfaces
    exact htag more hmore
  · obtain ⟨more, hmore, hwithin⟩ := hfaces.within
    obtain ⟨r', helement, hunread, hrun⟩ := hcomes more hmore
    rw [Site.names_within, Stops, hrun]
    exact (hinner t ht r' helement (hwithin r' hunread) (Site.lt_of_within hfuel)).bind _
  · obtain ⟨more, hmore, hbehind⟩ := hfaces.behind
    rw [List.append_assoc] at hmore
    obtain ⟨r', helement, hunread, hrun⟩ := hcomes _ hmore
    obtain ⟨hlength, hfuel'⟩ := Site.lt_of_behind hfuel
    obtain ⟨r'', hvalue, hat, hunread'⟩ := helement.exists_readValue_run hl hv hlength hunread
    rw [Site.names_behind, Stops, hrun]
    exact stops_bind_ok hvalue (hlater t ht r'' hat (hbehind r'' hunread') hfuel')

-- By recursion on what is written. Every level that is left, down to the element or on to the next one, takes one unit
-- of fuel and at least one of the bytes in front of the element, so these are enough of a bound.
mutual

/-- Reading a value stops at a tag that is not known, wherever in the value it is. -/
theorem stops_readValue (hl : l.maxDocumentSize < 2147483648) {tag : UInt8} (htag : ElementType.ofTag? tag = none)
    (v : Value) {s : Site} {r : Reader} {frame : Frame} {frames : List Frame} {name : String} {fuel : Nat}
    (h : r.AtElement l (frame :: frames) v.elementType name) (hv : Readable l (frames.length + 1) v) (hs : s ∈ sites v)
    (hfuel : s.before.length + 1 < fuel) (hfaces : r.Faces tag s) :
    Stops (unknownAt tag (frame :: frames) (name :: s.names)) (readValueWithin fuel v.elementType) r :=
  match v, fuel with
  | _, 0 | _, 1 => by omega
  | .document ⟨fields⟩, fuel + 2 => by
    obtain ⟨t, ht, rfl⟩ := List.mem_map.1 hs
    obtain ⟨more, hmore, hinner⟩ := hfaces.behind
    obtain ⟨hdepth, hfields⟩ := hv.document
    have hfront := Site.lt_of_front (by rw [lengthWord, length_littleEndianBytes]; decide) hfuel
    refine (stops_readDocument h.stands (.inr (.inr ⟨h.stands.state_eq, h.type_eq, rfl⟩))
      (isContainerWord_lengthWord hl hdepth hv.bounds) hmore fun inner r' hfresh harray hkind hat hunread => ?_).bind _
    rw [Site.names_behind, ← unknownAt_cons t.names (hfresh.segment_eq.trans h.segment_eq)]
    exact stops_readFields hl htag fields hat harray hkind hfields (fun _ _ => rfl) ht hfront (hinner r' hunread)
  | .array xs, fuel + 2 => by
    obtain ⟨t, ht, rfl⟩ := List.mem_map.1 hs
    obtain ⟨more, hmore, hinner⟩ := hfaces.behind
    obtain ⟨hdepth, hitems⟩ := hv.array
    have hfront := Site.lt_of_front (by rw [lengthWord, length_littleEndianBytes]; decide) hfuel
    obtain ⟨inner, r', hrun, hfresh, hat, hunread⟩ :=
      exists_startArray_run h.stands h.type_eq (isContainerWord_lengthWord hl hdepth hv.bounds) hmore
    refine (stops_bind_ok hrun (Stops.bind ?_ _)).bind _
    rw [Site.names_behind, ← unknownAt_cons t.names (hfresh.segment_eq.trans h.segment_eq)]
    have hindex : inner.index + 1 = (0 : Nat) := by
      rw [hfresh.index_eq]
      rfl
    exact stops_readItems hl htag xs hat hfresh.kind_eq hindex hitems ht hfront (hinner r' hunread)
  | .scopedCode code ⟨fields⟩, fuel + 2 => by
    obtain ⟨t, ht, rfl⟩ := List.mem_map.1 hs
    obtain ⟨more, hmore, hinner⟩ := hfaces.behind
    obtain ⟨hdepth, hcode, hscope, hfields⟩ := hv.scopedCode
    have hfront := Site.lt_of_front (by rw [scopeFront, lengthWord, lengthWord]; simp) hfuel
    rw [scopeFront, List.append_assoc] at hmore
    obtain ⟨around, r₁, hrun, hfresh₁, hat₁, hmore₁⟩ := exists_readScopedCode_run hl h.stands h.type_eq
      (isContainerWord_lengthWord hl (Nat.lt_of_succ_lt hdepth) hv.bounds) hcode hmore
    -- Two containers are open in the scope, and only the outer one has kept the name of the element.
    have hnone : Read.segment r₁ = none := by simp only [Read.segment, hat₁.frames_eq, hfresh₁.kind_eq]
    refine stops_bind_ok hrun ((stops_readDocument hat₁ (.inr (.inl ⟨hat₁.state_eq, rfl⟩))
      (isContainerWord_lengthWord hl hdepth hscope) hmore₁ fun inner r' hfresh harray hkind hat hunread => ?_).bind _)
    rw [Site.names_behind, ← unknownAt_cons t.names (hfresh₁.segment_eq.trans h.segment_eq),
      ← unknownAt_cons_of_none t.names (hfresh.segment_eq.trans hnone)]
    exact stops_readFields hl htag fields hat harray hkind hfields (fun _ _ => rfl) ht hfront (hinner r' hunread)
  | .double _, _ | .string _, _ | .binary _ _, _ | .undefined, _ | .objectId _, _ | .boolean _, _ | .dateTime _, _
  | .null, _ | .regularExpression _ _, _ | .dbPointer _ _, _ | .javaScript _, _ | .symbol _, _ | .int32 _, _
  | .timestamp _ _, _ | .int64 _, _ | .decimal128 _, _ | .minKey, _ | .maxKey, _ => (List.not_mem_nil hs).elim

/-- Reading the fields of a document stops at a tag that is not known, wherever in the fields it is. -/
theorem stops_readFields (hl : l.maxDocumentSize < 2147483648) {tag : UInt8} (htag : ElementType.ofTag? tag = none)
    (fields : List (String × Value)) {s : Site} {r : Reader} {frame : Frame} {frames : List Frame} {d : Document}
    {fuel : Nat} (h : r.At l (frame :: frames) .type) (harray : frame.kind ≠ .array) (hkind : frame.kind ≠ .scopedCode)
    (hfields : FieldsReadable l (frames.length + 1) fields)
    (hnew : ∀ name ∈ fields.map Prod.fst, d.contains name = false) (hs : s ∈ fieldSites fields)
    (hfuel : s.before.length < fuel) (hfaces : r.Faces tag s) :
    Stops (unknownAt tag (frame :: frames) s.names) (readFieldsWithin fuel d) r :=
  match fields, fuel with
  | [], _ => (List.not_mem_nil hs).elim
  | _ :: _, 0 => absurd hfuel (Nat.not_lt_zero _)
  | (name, v) :: rest, fuel + 1 => by
    obtain ⟨hname, hother, hv, hrest⟩ := hfields.cons
    have hcontains := hnew name List.mem_cons_self
    have hnew' (other : String) (hmem : other ∈ rest.map Prod.fst) : (d.insert name v).contains other = false :=
      (Record.contains_insert hcontains).2
        ⟨hnew other (List.mem_cons_of_mem _ hmem), fun heq => hother (heq ▸ hmem)⟩
    refine stops_element (fun v => readFieldsWithin fuel (d.insert name v)) hl hv hs hfuel hfaces
      (fun more hmore => ?_) (fun more hmore => ?_) (fun t ht r' helement hfaces' hfuel' => ?_)
      fun t ht r' hat hfaces' hfuel' => ?_
    · have hstops := stops_readType h hkind htag hname (fun heq => absurd heq harray) hmore
      exact stops_bind_ok (offset_run r) (hstops.bind _)
    · exact exists_readFields_run h harray hkind (elementType_ne_endOfDocument v) hname hcontains hmore fuel
    · exact stops_readValue hl htag v helement hv ht hfuel' hfaces'
    · exact stops_readFields hl htag rest hat harray hkind hrest hnew' ht hfuel' hfaces'

/-- Reading the items of an array stops at a tag that is not known, wherever in the items it is. -/
theorem stops_readItems (hl : l.maxDocumentSize < 2147483648) {tag : UInt8} (htag : ElementType.ofTag? tag = none)
    (xs : List Value) {index : Nat} {s : Site} {r : Reader} {frame : Frame} {frames : List Frame} {fuel : Nat}
    (h : r.At l (frame :: frames) .type) (harray : frame.kind = .array) (hindex : frame.index + 1 = index)
    (hitems : ItemsReadable l (frames.length + 1) index xs) (hs : s ∈ itemSites index xs)
    (hfuel : s.before.length < fuel) (hfaces : r.Faces tag s) :
    Stops (unknownAt tag (frame :: frames) s.names) (readItemsWithin fuel) r :=
  match xs, fuel with
  | [], _ => (List.not_mem_nil hs).elim
  | _ :: _, 0 => absurd hfuel (Nat.not_lt_zero _)
  | v :: rest, fuel + 1 => by
    obtain ⟨hv, hrest⟩ := hitems.cons
    have hname : '\x00' ∉ (toString index).toList := by
      rw [← Utf8.zero_mem_encode]
      exact Utf8.zero_notMem_encode_toString index
    have hlabel : toString (frame.index + 1) = toString index := by
      rw [hindex]
      rfl
    have hpassed (names : List String) :
        unknownAt tag (passed frame :: frames) names = unknownAt tag (frame :: frames) names := by
      rw [unknownAt, Frame.names_congr (passed_segment frame), unknownAt]
    have hindex' : (passed frame).index + 1 = (index + 1 : Nat) := by
      rw [passed, if_pos harray, Int.natCast_succ, ← hindex]
    rw [← hpassed]
    refine stops_element (fun v => readItemsWithin fuel >>= fun xs => pure (v :: xs)) hl hv hs hfuel hfaces
      (fun more hmore => ?_) (fun more hmore => ?_) (fun t ht r' helement hfaces' hfuel' => ?_)
      fun t ht r' hat hfaces' hfuel' => ?_
    · rw [hpassed]
      exact (stops_readType h (by rw [harray]; decide) htag hname (fun _ => hlabel) hmore).bind _
    · exact exists_readItems_run h harray (elementType_ne_endOfDocument v) hname hlabel hmore fuel
    · exact stops_readValue hl htag v helement hv ht hfuel' hfaces'
    · exact (stops_readItems hl htag rest hat (passed_kind frame ▸ harray) hindex' hrest ht hfuel' hfaces').bind _

end

/-- Reading a document stops at a tag that is not known, wherever in the document it is. -/
theorem stops_readDocument_of_faces (hl : l.maxDocumentSize < 2147483648) {tag : UInt8}
    (htag : ElementType.ofTag? tag = none) {d : Document} {s : Site} {r : Reader} (h : r.Idle l)
    (hd : Readable l 0 (.document d)) (hs : s ∈ sites (.document d)) (hfaces : r.Faces tag s) :
    Stops (.unknownType tag s.path) readDocument r := by
  obtain ⟨state, hstate, hat⟩ := h
  obtain ⟨t, ht, rfl⟩ := List.mem_map.1 hs
  obtain ⟨hdepth, hfields⟩ := hd.document
  obtain ⟨more, hmore, hinner⟩ := hfaces.behind
  have hfuel : t.before.length < r.supply + 3 := by
    obtain ⟨rest, hrest⟩ := hfaces
    have hlength := congrArg List.length hrest
    rw [hat.live.length_unread] at hlength
    simp only [Site.retagged, Site.behind, List.length_append] at hlength
    rw [supply]
    omega
  have hnone : Read.segment r = none := by simp only [Read.segment, hat.frames_eq]
  rw [Stops, readDocument_run]
  refine stops_readDocument hat (.inl ⟨hat.state_eq ▸ hstate, rfl⟩) (isContainerWord_lengthWord hl hdepth hd.bounds)
    hmore fun frame r' hfresh harray hkind hat' hunread => ?_
  have hstops := stops_readFields hl htag d.entries (d := .empty) hat' harray hkind hfields (fun _ _ => rfl) ht hfuel
    (hinner r' hunread)
  rwa [unknownAt_cons_of_none _ (hfresh.segment_eq.trans hnone)] at hstops

end Reader

namespace DocumentStream

variable {s : DocumentStream} {feed : Feed} {p : Nat} {e : WireError}

/-- A stream over documents and something on which reading stops ends with the error. -/
theorem StandsAt.error_of_stops (hl : l.maxDocumentSize < 2147483648) {ds : List Document} {more : List UInt8}
    (h : s.StandsAt l feed p) (hforms : ∀ d ∈ ds, IsDocumentForm l d (document d))
    (hbytes : feed.bytes.drop p = ds.flatMap document ++ more) (hmore : more ≠ [])
    (hstops : ∀ r : Reader, r.Idle l → r.input.unread = more → Stops e readDocument r) {count : Nat}
    (hcount : feed.bytes.length < p + count) : (s.take count).2.error = some e := by
  have hle := h.le_length
  obtain ⟨count, rfl⟩ := Nat.exists_eq_add_one_of_ne_zero (show count ≠ 0 by omega)
  induction ds generalizing s p count with
  | nil =>
      obtain ⟨r, hend, hadvances, hidle⟩ := isAtEnd_run h.running.idle
      rw [h.unread_eq, hbytes, List.flatMap_nil, List.nil_append, decide_eq_false hmore] at hend
      have hunread : r.input.unread = more := by
        have heq := hadvances.unread_eq
        rw [h.unread_eq, hbytes] at heq
        exact heq.symm
      obtain ⟨r', hread⟩ := hstops r hidle hunread
      have hnext : s.next = (none, finish { s with reader := r' } (some e)) := by
        simp only [next, h.running.isFinished_eq, hend, hread]
        rfl
      rw [take, hnext]
      rfl
  | cons d rest ih =>
      have hd := hforms d List.mem_cons_self
      rw [List.flatMap_cons, List.append_assoc] at hbytes
      obtain ⟨s', hnext, hstands⟩ := h.next_of_form hl hd hbytes
      have hpositive := List.length_pos_iff.2 hd.ne_nil
      have hle' := hstands.le_length
      have hrest : feed.bytes.drop (p + (document d).length) = rest.flatMap document ++ more := by
        rw [← List.drop_drop, hbytes, List.drop_left]
      obtain ⟨count, rfl⟩ := Nat.exists_eq_add_one_of_ne_zero (show count ≠ 0 by omega)
      rw [take, hnext]
      exact ih hstands (fun d' hd' => hforms d' (List.mem_cons_of_mem _ hd')) hrest hle' count (by omega)

end DocumentStream

theorem decodeStream_of_stops (hl : l.maxDocumentSize < 2147483648) {source : Source} (hending : source.ending = .ends)
    {ds : List Document} {more : List UInt8} {e : WireError} (hforms : ∀ d ∈ ds, IsDocumentForm l d (document d))
    (hcontent : source.content = ds.flatMap document ++ more) (hmore : more ≠ [])
    (hstops : ∀ r : Reader, r.Idle l → r.input.unread = more → Stops e readDocument r) :
    (decodeStream source l).result = .error e := by
  have hstands := DocumentStream.standsAt_ofSource hending l
  have hsupply : source.feed.bytes.length < 0 + ((DocumentStream.ofSource source l).reader.supply + 1) := by
    have hposition := hstands.position_eq
    rw [position] at hposition
    rw [supply, hstands.window.supply_eq, hposition]
    omega
  have herror := hstands.error_of_stops hl hforms hcontent hmore hstops hsupply
  rw [decodeStream, DocumentStream.collect]
  rcases htake : (DocumentStream.ofSource source l).take ((DocumentStream.ofSource source l).reader.supply + 1)
    with ⟨documents, s⟩
  rw [htake] at herror
  have hlast : s.error = some e := herror
  simp only [hlast]

theorem decode_of_stops {bytes : List UInt8} {e : WireError}
    (hstops : ∀ r : Reader, r.Idle {} → r.input.unread = bytes → Stops e readDocument r) :
    (decode bytes).result = .error e := by
  obtain ⟨hcontent, hending⟩ := Source.content_ofBytes bytes (by decide : 0 < Source.readSize) false
  obtain ⟨t, hread⟩ := hstops _ (idle_ofSource hending {} 0) hcontent
  rw [decode, readAlone, run_bind_error hread]

/-- Wherever in a document that can be encoded an element gets a tag that is not known, whatever follows its name:
reading the document fails, and so does reading a stream of documents that comes to it; the error has the tag, and the
names that lead to the element, with points between them. -/
theorem decode_retagged (d : Document) (s : Site) (tag : UInt8) (hdistinct : HasDistinctNames (.document d))
    (hs : s ∈ sites (.document d)) (htag : ElementType.ofTag? tag = none) :
    (∀ bytes, (encode d).result = .ok bytes →
      s.StandsIn bytes ∧
      (decode (bytes.set s.before.length tag)).result = .error (.unknownType tag s.path) ∧
      ∀ rest, (decode (s.retagged tag rest)).result = .error (.unknownType tag s.path) ∧
        ∀ source : Source, source.content = s.retagged tag rest → source.ending = .ends →
          (decodeStream source).result = .error (.unknownType tag s.path)) ∧
    ∀ size nesting ds n, (Limits.ofWord size nesting).fault? = none → (∀ d' ∈ ds, HasDistinctNames (.document d')) →
      (encodeStream (ds ++ [d]) {} (.ofWord size nesting)).result = .ok n →
        ∀ rest, ∀ source : Source,
          source.content = (encodeStream ds {} (.ofWord size nesting)).bytes ++ s.retagged tag rest →
            source.ending = .ends → (decodeStream source (.ofWord size nesting)).result =
              .error (.unknownType tag s.path) := by
  have hreadable {l : Limits} (hfault : l.fault? = none) (hadmits : Admits l 0 (.document d)) :
      Readable l 0 (.document d) := ⟨hadmits, hdistinct, ((admits_document_iff hfault d).1 hadmits).2.2⟩
  have hne (rest : List UInt8) : s.retagged tag rest ≠ [] := List.append_ne_nil_of_right_ne_nil _ (List.cons_ne_nil _ _)
  have hstops {l : Limits} (hl : l.maxDocumentSize < 2147483648) (hd : Readable l 0 (.document d)) (rest : List UInt8)
      (r : Reader) (hidle : r.Idle l) (hunread : r.input.unread = s.retagged tag rest) :
      Stops (.unknownType tag s.path) readDocument r :=
    stops_readDocument_of_faces hl htag hidle hd hs ⟨rest, hunread⟩
  constructor
  · intro bytes hencode
    obtain ⟨hadmits, rfl⟩ := (encode_eq_ok_iff d bytes).1 hencode
    have hd := hreadable (by decide) hadmits
    have halone (rest : List UInt8) :
        (decode (s.retagged tag rest)).result = .error (.unknownType tag s.path) :=
      decode_of_stops (hstops (by decide) hd rest)
    obtain ⟨rest, hset⟩ := (standsIn_value hs).exists_set_eq tag
    refine ⟨standsIn_value hs, ?_, fun rest => ⟨halone rest, fun source hcontent hending => ?_⟩⟩
    · rw [show (document d).set s.before.length tag = s.retagged tag rest from hset, halone]
    · have hcontent' : source.content = ([] : List Document).flatMap document ++ s.retagged tag rest := hcontent
      exact decodeStream_of_stops (by decide) hending (List.forall_mem_nil _) hcontent' (hne rest)
        (hstops (by decide) hd rest)
  · intro size nesting ds n hfault hdistinct' hencode rest source hcontent hending
    have hadmits := admits_of_encodeStream rfl hencode
    have hbefore : ∀ d' ∈ ds, Admits (.ofWord size nesting) 0 (.document d') := fun d' hd' =>
      hadmits d' (List.mem_append_left _ hd')
    have hl := Limits.ofWord_lt size nesting
    rw [(encodeStream_of_admits rfl hbefore).2] at hcontent
    have hforms : ∀ d' ∈ ds, IsDocumentForm (.ofWord size nesting) d' (document d') := fun d' hd' =>
      isForm_value _ (hbefore d' hd') (hdistinct' d' hd') ((admits_document_iff hfault d').1 (hbefore d' hd')).2.2
    have hd := hreadable hfault (hadmits d (List.mem_append_right _ (List.mem_singleton_self d)))
    exact decodeStream_of_stops hl hending hforms hcontent (hne rest) (hstops hl hd rest)

/-- A field of a document that is in the scope of code in an array. -/
theorem decode_retagged_scope :
    let d : Document :=
      ⟨[("a", .array [.int32 1, .scopedCode "f" ⟨[("é", .document ⟨[("c", .int32 1), ("z", .null)]⟩)]⟩])]⟩
    let l : Limits := .ofWord 100 5
    ∃ s ∈ sites (.document d), HasDistinctNames (.document d) ∧ ElementType.ofTag? 0xF0 = none ∧ s.path = "a.1.é.c" ∧
      (∃ bytes, (encode d).result = .ok bytes ∧ bytes[s.before.length]? = some 0x10 ∧
        (decode (bytes.set s.before.length 0xF0)).result = .error (.unknownType 0xF0 "a.1.é.c")) ∧
      l.fault? = none ∧ (encodeStream ([d] ++ [d]) {} l).result = .ok 114 ∧
        (decodeStream (.ofBytes ((encodeStream [d] {} l).bytes ++ s.retagged 0xF0 [1, 2]) 1 none true) l).result =
          .error (.unknownType 0xF0 "a.1.é.c") := by
  intro d l
  have hlimits : l.fault? = none := by decide
  have hdistinct : HasDistinctNames (.document d) := by
    simp [d, HasDistinctNames, HaveDistinctNames, ItemsHaveDistinctNames]
  have hnul : IsNulFree (.document d) := by simp [d, IsNulFree, AreNulFree, ItemsAreNulFree]
  let s := (sites (.document d)).get ⟨4, by decide +kernel⟩
  have hs : s ∈ sites (.document d) := List.get_mem _ _
  have hpath : s.path = "a.1.é.c" := by decide +kernel
  have hencode : (encode d).result = .ok (document d) :=
    (encode_eq_ok_iff d _).2 ⟨(admits_document_iff (by decide) d).2 ⟨hnul, by decide, by decide⟩, rfl⟩
  have hstream : (encodeStream ([d] ++ [d]) {} l).result = .ok 114 := by
    have hadmits : Admits l 0 (.document d) := (admits_document_iff hlimits d).2 ⟨hnul, by decide, by decide⟩
    exact (encodeStream_of_admits rfl (by simp [hadmits])).1
  obtain ⟨hone, hall⟩ := decode_retagged d s 0xF0 hdistinct hs rfl
  obtain ⟨-, hset, -⟩ := hone _ hencode
  obtain ⟨hcontent, hending⟩ :=
    Source.content_ofBytes ((encodeStream [d] {} l).bytes ++ s.retagged 0xF0 [1, 2]) Nat.one_pos true
  have hlast := hall 100 5 [d] 114 hlimits (List.forall_mem_singleton.2 hdistinct) hstream [1, 2] _ hcontent hending
  rw [hpath] at hset hlast
  exact ⟨s, hs, hdistinct, rfl, hpath, ⟨_, hencode, by decide +kernel, hset⟩, hlimits, hstream, hlast⟩

end Aggregation.Wire
