import Aggregation.Proofs.Wire.Reading

/-! Reading reads the grammar. The steps that read a value, a document and the elements of a container are bounded by a
number, and each reads its form if the bytes of the form are fewer than that number; one induction on it covers all
five. A reader starts with more than there are bytes, so that the bound does not show. -/

namespace Aggregation.Wire

open Stepping Layout Read Reader

variable {l : Limits} {frame : Frame} {frames : List Frame}

/-- A container is its length, its elements and a terminator, where the length is that of all of them. -/
theorem exists_container_iff {p : List UInt8 → Prop} {bytes : List UInt8} (hl : l.maxDocumentSize < 2147483648) :
    (∃ word body, IsContainerWord l frames word ∧ p body ∧ declaredLength word = (word ++ (body ++ [0])).length ∧
        bytes = word ++ (body ++ [0])) ↔
      frames.length < l.maxNestingDepth ∧ ∃ body, p body ∧ bytes = container body ∧ l.Bounds bytes.length := by
  constructor
  · rintro ⟨word, body, ⟨hdepth, hword⟩, hbody, hlength, rfl⟩
    obtain ⟨hsized, -, hbounds⟩ := (declaredLength_eq_iff hl).1 ⟨hword, hlength⟩
    exact ⟨hdepth, body, hbody, hsized, hbounds⟩
  · rintro ⟨hdepth, body, hbody, rfl, hbounds⟩
    have hword := length_littleEndianBytes 4 ((body ++ [0]).length + 4)
    obtain ⟨hn, hlength⟩ := (declaredLength_eq_iff hl).2 ⟨rfl, hword, hbounds⟩
    exact ⟨_, body, ⟨hdepth, hn⟩, hbody, hlength, rfl⟩

/-- A container that has been read is complete exactly if it is as long as its first bytes declare. -/
theorem endsAt_iff {r r' r'' : Reader} {kind : FrameKind} {word rest : List UInt8} (hframe : r.Opened kind word frame)
    (hword : r.input.Advances word r'.input) (hrest : r'.input.Advances rest r''.input) :
    EndsAt frame r''.position ↔ declaredLength word = (word ++ rest).length := by
  have hposition : r''.position - frame.start = (word ++ rest).length := by
    rw [hframe.start_eq, position, position, (hword.trans hrest).position_eq]
    omega
  rw [EndsAt, hposition, hframe.declared_eq, eq_comm]

/-- Reading the code of code with a scope opens a container around it. -/
theorem readScopedCode_consumes {r : Reader} {most : Nat} (hl : l.maxDocumentSize < 2147483648)
    (h : r.At l frames .value) (htype : r.currentType = some .scopedCode) :
    Consumes Reader.input most readScopedCode r
      (fun code bytes => ∃ word, IsContainerWord l frames word ∧ l.Bounds ((Utf8.encode code).length + 1) ∧
        bytes = word ++ text code)
      fun code bytes r' => ∃ word around, word.length = 4 ∧ bytes = word ++ text code ∧
        r.Opened .scopedCode word around ∧ r'.At l (around :: frames) .scopeDocument := by
  refine .bind_ok (beginValue_run h htype _) rfl ?_
  refine .congr (.bind (g := fun _ _ code rest => rest = text code ∧ l.Bounds ((Utf8.encode code).length + 1))
    (openContainer_consumes h .scopedCode) fun _ word r₁ hword hadvances hnext => ?_) fun code bytes => ?_
  · obtain ⟨frame, hframe, hat⟩ := hnext
    have hlength : word.length = 4 := by
      obtain ⟨-, n, rfl, -⟩ := hword
      rw [length_littleEndianBytes]
    have hstring : Gives stringPayload r₁ (most - word.length) _ := stringPayload_gives hat.live (hat.limits_eq ▸ hl)
    rw [hat.limits_eq] at hstring
    refine .congr (.bind_check (p := fun code _ other => other = code) hstring
      fun code rest r₂ hcode hadvances₂ hmoved => ?_) fun code rest => ?_
    · have hat₂ := hat.moved hmoved hadvances₂.live
      refine .of_ok (run_bind_ok (run_modify _ _)) hadvances₂.live.refl (fun _ => Iff.rfl) ?_
      rw [hcode.1, List.append_nil]
      exact ⟨word, frame, hlength, rfl, hframe, hat₂.live, hat₂.limits_eq, hat₂.frames_eq, rfl⟩
    · exact ⟨fun ⟨_, hcode, hother⟩ => hother ▸ hcode, fun hcode => ⟨code, hcode, rfl⟩⟩
  · constructor
    · rintro ⟨_, word, rest, hword, ⟨rfl, hbounds⟩, rfl⟩
      exact ⟨word, hword, hbounds, rfl⟩
    · rintro ⟨word, hword, hbounds, rfl⟩
      exact ⟨(), word, _, hword, ⟨rfl, hbounds⟩, rfl⟩

/-- Code with a scope is the length, the code and the scope document, where the length is that of all three. -/
theorem scopedCode_iff (hl : l.maxDocumentSize < 2147483648) {v : Value} {bytes : List UInt8} :
    (∃ code first rest, (∃ word, IsContainerWord l (frame :: frames) word ∧ l.Bounds ((Utf8.encode code).length + 1) ∧
        first = word ++ text code) ∧
          (∃ d, v = .scopedCode code d ∧ IsForm l (frames.length + 2) (.document d) rest ∧
            declaredLength (first.take 4) = (first ++ rest).length) ∧ bytes = first ++ rest) ↔
      v.elementType = .scopedCode ∧ IsForm l (frames.length + 1) v bytes := by
  constructor
  · rintro ⟨code, first, rest, ⟨word, ⟨hdepth, hword⟩, hbounds, rfl⟩,
      ⟨⟨fields⟩, rfl, ⟨hinner, hnodup, body, hbody, rfl, -⟩, hlength⟩, rfl⟩
    have htake : (word ++ text code).take 4 = word := by
      obtain ⟨n, rfl, -⟩ := hword
      rw [List.take_append_of_le_length (by rw [length_littleEndianBytes]), List.take_of_length_le
        (by rw [length_littleEndianBytes])]
    rw [htake, List.append_assoc] at hlength
    obtain ⟨hsized, -, hsize⟩ := (declaredLength_eq_iff hl).1 ⟨hword, hlength⟩
    rw [List.append_assoc]
    exact ⟨rfl, hinner, hnodup, body, hbody, hsized, hsize⟩
  · rintro ⟨htype, hform⟩
    obtain ⟨code, ⟨fields⟩, rfl⟩ : ∃ code d, v = .scopedCode code d := match v, htype with
      | .scopedCode code d, _ => ⟨code, d, rfl⟩
    obtain ⟨hinner, hnodup, body, hbody, rfl, hsize⟩ := hform
    have hword := length_littleEndianBytes 4 ((text code ++ container body).length + 4)
    obtain ⟨hn, hlength⟩ := (declaredLength_eq_iff hl).2 ⟨rfl, hword, hsize⟩
    rw [length_sized, List.length_append, length_text, length_container, Limits.Bounds] at hsize
    refine ⟨code, _, container body, ⟨_, ⟨Nat.lt_of_succ_lt hinner, hn⟩, ?_, rfl⟩,
      ⟨⟨fields⟩, rfl, ⟨hinner, hnodup, body, hbody, rfl, ?_⟩, ?_⟩, ?_⟩
    · rw [Limits.Bounds]
      omega
    · rw [length_container, Limits.Bounds]
      omega
    · rw [List.append_assoc, ← hlength, List.take_append_of_le_length (Nat.le_of_eq hword.symm),
        List.take_of_length_le (Nat.le_of_eq hword)]
    · rw [sized, List.append_assoc]

/-- The bytes that are read for the fields of a document, after those that it has. -/
def AreFieldsAfter (l : Limits) (opened : Nat) (d d' : Document) (bytes : List UInt8) : Prop :=
  ∃ fields body, d'.entries = d.entries ++ fields ∧ bytes = body ++ [0] ∧ AreForms l opened fields body ∧
    (fields.map Prod.fst).Nodup ∧ ∀ name ∈ fields.map Prod.fst, d.contains name = false

theorem elementType_ne_endOfDocument (v : Value) : v.elementType ≠ .endOfDocument := by
  cases v <;> exact nofun

/-- The fields end with a terminator, or one more comes before them. -/
theorem areFieldsAfter_iff {opened : Nat} {d d' : Document} {bytes : List UInt8} :
    AreFieldsAfter l opened d d' bytes ↔ (bytes = [0] ∧ d' = d) ∨ ∃ name v first later,
      '\x00' ∉ name.toList ∧ d.contains name = false ∧ IsForm l opened v first ∧
        AreFieldsAfter l opened (d.insert name v) d' later ∧
          bytes = v.elementType.tag :: (cstring name ++ first ++ later) := by
  constructor
  · rintro ⟨fields, body, hentries, rfl, hforms, hnodup, hnew⟩
    cases fields with
    | nil =>
        rw [AreForms] at hforms
        rw [List.append_nil] at hentries
        exact .inl ⟨by rw [hforms]; rfl, by cases d; cases d'; cases hentries; rfl⟩
    | cons field rest =>
        obtain ⟨name, v⟩ := field
        obtain ⟨hname, first, later, hv, hrest, rfl⟩ := hforms
        rw [List.map_cons, List.nodup_cons] at hnodup
        have hcontains := hnew name List.mem_cons_self
        refine .inr ⟨name, v, first, later ++ [0], hname, hcontains, hv,
          ⟨rest, later, ?_, rfl, hrest, hnodup.2, ?_⟩, ?_⟩
        · rw [Record.entries_insert hcontains, hentries, List.append_assoc]
          rfl
        · intro other hother
          rw [Record.contains_insert hcontains]
          exact ⟨hnew other (List.mem_cons_of_mem _ hother), fun heq => hnodup.1 (heq ▸ hother)⟩
        · simp only [head, cstring, List.cons_append, List.append_assoc]
  · rintro (⟨rfl, rfl⟩ | ⟨name, v, first, later, hname, hcontains, hv,
      ⟨fields, body, hentries, rfl, hforms, hnodup, hnew⟩, rfl⟩)
    · exact ⟨[], [], (List.append_nil _).symm, rfl, rfl, List.nodup_nil, List.forall_mem_nil _⟩
    · refine ⟨(name, v) :: fields, head v.elementType (Utf8.encode name) ++ first ++ body, ?_, ?_,
        ⟨hname, first, body, hv, hforms, rfl⟩, ?_, ?_⟩
      · rw [hentries, Record.entries_insert hcontains, List.append_assoc]
        rfl
      · simp only [head, cstring, List.cons_append, List.append_assoc]
      · rw [List.map_cons, List.nodup_cons]
        exact ⟨fun hmem => ((Record.contains_insert hcontains).1 (hnew name hmem)).2 rfl, hnodup⟩
      · intro other hother
        rcases List.mem_cons.1 hother with rfl | hmem
        · exact hcontains
        · exact ((Record.contains_insert hcontains).1 (hnew other hmem)).1

/-- The items end with a terminator, or one more comes before them. -/
theorem exists_itemsAreForms_iff {opened : Nat} {xs : List Value} {bytes : List UInt8} :
    (∃ body, bytes = body ++ [0] ∧ ItemsAreForms l opened xs body) ↔
      (bytes = [0] ∧ xs = []) ∨ ∃ name v rest first later, xs = v :: rest ∧ 0 ∉ name ∧ IsForm l opened v first ∧
        (∃ body, later = body ++ [0] ∧ ItemsAreForms l opened rest body) ∧
          bytes = v.elementType.tag :: (name ++ [0] ++ first ++ later) := by
  constructor
  · rintro ⟨body, rfl, hforms⟩
    cases xs with
    | nil =>
        rw [ItemsAreForms] at hforms
        exact .inl ⟨by rw [hforms]; rfl, rfl⟩
    | cons v rest =>
        obtain ⟨name, first, later, hname, hv, hrest, rfl⟩ := hforms
        refine .inr ⟨name, v, rest, first, later ++ [0], rfl, hname, hv, ⟨later, rfl, hrest⟩, ?_⟩
        simp only [head, List.cons_append, List.append_assoc]
  · rintro (⟨rfl, rfl⟩ | ⟨name, v, rest, first, later, rfl, hname, hv, ⟨body, rfl, hrest⟩, rfl⟩)
    · exact ⟨[], rfl, rfl⟩
    · refine ⟨head v.elementType name ++ first ++ body, ?_, name, first, body, hname, hv, hrest, rfl⟩
      simp only [head, List.cons_append, List.append_assoc]

mutual

theorem readValueWithin_consumes (fuel : Nat) {r : Reader} {frame : Frame} {frames : List Frame} {type : ElementType}
    (hl : l.maxDocumentSize < 2147483648) (h : r.At l (frame :: frames) .value) (htype : r.currentType = some type) :
    Consumes Reader.input fuel (readValueWithin fuel type) r
      (fun v bytes => v.elementType = type ∧ IsForm l (frames.length + 1) v bytes)
      fun _ _ r' => r'.At l (frame :: frames) .type :=
  match fuel with
  | 0 => .of_short ⟨_, _, rfl⟩ fun _ _ _ => Nat.zero_le _
  | fuel + 1 => by
    have hl' : r.limits.maxDocumentSize < 2147483648 := h.limits_eq ▸ hl
    have hlimits := h.limits_eq
    cases type with
    | endOfDocument =>
        exact .of_fails (fails_throw _ _) fun v bytes hv => elementType_ne_endOfDocument v hv.1
    | double =>
        exact readScalar_consumes h htype _ (double_gives h.live) (fun | .double x, _ => ⟨x, rfl⟩)
          fun _ _ => (and_iff_right rfl).symm
    | string =>
        exact readScalar_consumes h htype _ (stringPayload_gives h.live hl') (fun | .string s, _ => ⟨s, rfl⟩)
          fun _ _ => hlimits ▸ (and_iff_right rfl).symm
    | document =>
        have hdocument := readDocumentWithin_consumes fuel (q := fun _ => True) hl h
          (.inr (.inr ⟨h.state_eq, htype, rfl⟩))
          fun _ _ _ hkind hat => (endDocument_consumes hat hkind).congr fun _ _ => by rw [and_true]
        exact value_consumes hdocument (fun | .document d, _ => ⟨d, rfl⟩)
          fun _ _ => (and_iff_left trivial).trans (and_iff_right rfl).symm
    | array =>
        exact value_consumes (readArrayWithin_consumes fuel hl h htype) (fun | .array xs, _ => ⟨xs, rfl⟩)
          fun _ _ => (and_iff_right rfl).symm
    | binary =>
        exact readScalar_consumes h htype _ (binaryPayload_gives h.live hl')
          (fun | .binary subtype content, _ => ⟨(subtype, content), rfl⟩)
          fun _ _ => hlimits ▸ (and_iff_right rfl).symm
    | undefined =>
        exact readScalar_consumes h htype _ (empty_gives h.live) (fun | .undefined, _ => ⟨(), rfl⟩)
          fun _ _ => (and_iff_right rfl).symm
    | objectId =>
        exact readScalar_consumes h htype _ (objectIdPayload_gives h.live) (fun | .objectId id, _ => ⟨id, rfl⟩)
          fun _ _ => (and_iff_right rfl).symm
    | boolean =>
        exact readScalar_consumes h htype _ (booleanPayload_gives h.live) (fun | .boolean b, _ => ⟨b, rfl⟩)
          fun _ _ => (and_iff_right rfl).symm
    | dateTime =>
        exact readScalar_consumes h htype _ (onInput_consumes (Replay.int64_consumes h.live))
          (fun | .dateTime millis, _ => ⟨millis, rfl⟩) fun _ _ => (and_iff_right rfl).symm
    | null =>
        exact readScalar_consumes h htype _ (empty_gives h.live) (fun | .null, _ => ⟨(), rfl⟩)
          fun _ _ => (and_iff_right rfl).symm
    | regularExpression =>
        exact readScalar_consumes h htype _ (regularExpression_gives h.live)
          (fun | .regularExpression pattern options, _ => ⟨(pattern, options), rfl⟩)
          fun _ _ => (and_iff_right rfl).symm
    | dbPointer =>
        exact readScalar_consumes h htype _ (dbPointer_gives h.live hl')
          (fun | .dbPointer collection id, _ => ⟨(collection, id), rfl⟩)
          fun _ _ => hlimits ▸ (and_iff_right rfl).symm
    | javaScript =>
        exact readScalar_consumes h htype _ (stringPayload_gives h.live hl') (fun | .javaScript code, _ => ⟨code, rfl⟩)
          fun _ _ => hlimits ▸ (and_iff_right rfl).symm
    | symbol =>
        exact readScalar_consumes h htype _ (stringPayload_gives h.live hl') (fun | .symbol name, _ => ⟨name, rfl⟩)
          fun _ _ => hlimits ▸ (and_iff_right rfl).symm
    | scopedCode =>
        refine .congr (.bind (g := fun code first v rest => ∃ d, v = .scopedCode code d ∧
            IsForm l (frames.length + 2) (.document d) rest ∧
              declaredLength (first.take 4) = (first ++ rest).length)
          (readScopedCode_consumes hl h htype) fun code first r₁ _ hadvances hnext => ?_) fun v bytes => ?_
        · obtain ⟨word, around, hword, hfirst, hframe, hat⟩ := hnext
          have hdocument := readDocumentWithin_consumes fuel (q := EndsAt around) hl hat
            (.inr (.inl ⟨hat.state_eq, rfl⟩))
            fun _ _ _ hkind hat' => endScope_consumes hat' hkind hframe.kind_eq
          refine ((hdocument.le (by omega)).bind_pure.congr fun v rest => ?_).mono ?_
          · have hposition : r₁.position + rest.length - around.start = (first ++ rest).length := by
              rw [hframe.start_eq, position, hadvances.position_eq, position, List.length_append]
              omega
            have htake : first.take 4 = word := by rw [hfirst, ← hword, List.take_left]
            rw [EndsAt, hposition, hframe.declared_eq, htake, eq_comm]
            constructor
            · rintro ⟨d, hd, rfl⟩
              exact ⟨d, rfl, hd⟩
            · rintro ⟨d, rfl, hd⟩
              exact ⟨d, hd, rfl⟩
          · rintro _ _ _ - - ⟨_, -, hat'⟩
            exact hat'
        · exact scopedCode_iff hl
    | int32 =>
        exact readScalar_consumes h htype _ (onInput_consumes (Replay.int32_consumes h.live))
          (fun | .int32 n, _ => ⟨n, rfl⟩) fun _ _ => (and_iff_right rfl).symm
    | timestamp =>
        exact readScalar_consumes h htype _ (timestamp_gives h.live)
          (fun | .timestamp time increment, _ => ⟨(time, increment), rfl⟩) fun _ _ => (and_iff_right rfl).symm
    | int64 =>
        exact readScalar_consumes h htype _ (onInput_consumes (Replay.int64_consumes h.live))
          (fun | .int64 n, _ => ⟨n, rfl⟩) fun _ _ => (and_iff_right rfl).symm
    | decimal128 =>
        exact readScalar_consumes h htype _ (decimal128Payload_gives h.live) (fun | .decimal128 d, _ => ⟨d, rfl⟩)
          fun _ _ => (and_iff_right rfl).symm
    | maxKey =>
        exact readScalar_consumes h htype _ (empty_gives h.live) (fun | .maxKey, _ => ⟨(), rfl⟩)
          fun _ _ => (and_iff_right rfl).symm
    | minKey =>
        exact readScalar_consumes h htype _ (empty_gives h.live) (fun | .minKey, _ => ⟨(), rfl⟩)
          fun _ _ => (and_iff_right rfl).symm

/-- Reading a document, in whatever way it ends. -/
theorem readDocumentWithin_consumes (fuel : Nat) {r : Reader} {kind : FrameKind} {state : ReaderState}
    {frames outer : List Frame} {q : Nat → Prop} (hl : l.maxDocumentSize < 2147483648) (h : r.At l frames state)
    (hkind : r.MayEnter kind)
    (hend : ∀ (frame : Frame) (r' : Reader) (most : Nat), frame.kind = kind → r'.At l (frame :: frames) .endOfDocument →
      Consumes Reader.input most endDocument r'
        (fun _ bytes => bytes = [] ∧ EndsAt frame r'.position ∧ q r'.position)
        fun _ _ t => t.At l outer (afterContainer outer)) :
    Consumes Reader.input (fuel + 1) (readDocumentWithin fuel) r
      (fun d bytes => IsForm l frames.length (.document d) bytes ∧ q (r.position + bytes.length))
      fun _ _ r' => r'.At l outer (afterContainer outer) :=
  match fuel with
  | 0 => by
    refine .of_short ⟨_, _, rfl⟩ fun d bytes hd => ?_
    obtain ⟨⟨_, _, body, _, rfl, _⟩, _⟩ := hd
    rw [length_container]
    omega
  | fuel + 1 => by
    refine .congr (.bind (g := fun _ word d rest => declaredLength word = (word ++ rest).length ∧
        q (r.position + (word ++ rest).length) ∧ (d.entries.map Prod.fst).Nodup ∧
          ∃ body, rest = body ++ [0] ∧ AreForms l (frames.length + 1) d.entries body)
      (startDocument_consumes h hkind) fun _ word r₁ hword hadvances hnext => ?_) fun d bytes => ?_
    · obtain ⟨frame, hframe, hat⟩ := hnext
      have hlength : word.length = 4 := by
        obtain ⟨-, n, rfl, -⟩ := hword
        rw [length_littleEndianBytes]
      have hdocument : frame.kind ≠ .array := by
        rw [hframe.kind_eq]
        rcases hkind with ⟨_, rfl⟩ | ⟨_, rfl⟩ | ⟨_, _, rfl⟩ <;> exact nofun
      refine .congr (.bind_check (p := fun d rest d' => d' = d ∧ declaredLength word = (word ++ rest).length ∧
          q (r.position + (word ++ rest).length))
        ((readFieldsWithin_consumes fuel .empty hl hat hdocument).le (by omega)) fun d rest r₂ _ hadvances₂ hat₂ => ?_)
        fun d rest => ?_
      · refine .congr (.bind_check (p := fun _ _ d' => d' = d) (hend frame r₂ _ hframe.kind_eq hat₂)
          fun _ _ r₃ _ hadvances₃ hat₃ => .of_ok (run_pure _ _) hadvances₃.live.refl (fun _ => Iff.rfl) hat₃)
          fun d' bytes => ?_
        have hposition : r₂.position = r.position + (word ++ rest).length := (hadvances.trans hadvances₂).position_eq
        rw [endsAt_iff hframe hadvances hadvances₂, hposition]
        exact ⟨fun ⟨_, ⟨hbytes, hlength, hq⟩, hd⟩ => ⟨hbytes, hd, hlength, hq⟩,
          fun ⟨hbytes, hd, hlength, hq⟩ => ⟨(), ⟨hbytes, hlength, hq⟩, hd⟩⟩
      · constructor
        · rintro ⟨_, ⟨fields, body, hentries, hrest, hforms, hnodup, -⟩, rfl, hlength, hq⟩
          rw [Record.empty, List.nil_append] at hentries
          exact ⟨hlength, hq, hentries ▸ hnodup, body, hrest, hentries ▸ hforms⟩
        · rintro ⟨hlength, hq, hnodup, body, hrest, hforms⟩
          exact ⟨d, ⟨d.entries, body, rfl, hrest, hforms, hnodup, fun _ _ => rfl⟩, rfl, hlength, hq⟩
    · obtain ⟨fields⟩ := d
      rw [IsForm]
      constructor
      · rintro ⟨_, word, rest, hword, ⟨hlength, hq, hnodup, body, rfl, hforms⟩, rfl⟩
        obtain ⟨hdepth, hcontainer⟩ := (exists_container_iff hl).1 ⟨word, body, hword, hforms, hlength, rfl⟩
        exact ⟨⟨hdepth, hnodup, hcontainer⟩, hq⟩
      · rintro ⟨⟨hdepth, hnodup, hcontainer⟩, hq⟩
        obtain ⟨word, body, hword, hforms, hlength, rfl⟩ := (exists_container_iff hl).2 ⟨hdepth, hcontainer⟩
        exact ⟨(), word, _, hword, ⟨hlength, hq, hnodup, body, rfl, hforms⟩, rfl⟩

theorem readFieldsWithin_consumes (fuel : Nat) {r : Reader} {frame : Frame} {frames : List Frame} (d : Document)
    (hl : l.maxDocumentSize < 2147483648) (h : r.At l (frame :: frames) .type) (hkind : frame.kind ≠ .array) :
    Consumes Reader.input fuel (readFieldsWithin fuel d) r
      (fun d' bytes => AreFieldsAfter l (frames.length + 1) d d' bytes)
      fun _ _ r' => r'.At l (frame :: frames) .endOfDocument :=
  match fuel with
  | 0 => .of_short ⟨_, _, rfl⟩ fun _ _ _ => Nat.zero_le _
  | fuel + 1 => by
    refine .bind_ok (offset_run r) rfl ?_
    refine .congr (.bind (g := fun type _ d' rest => (type = .endOfDocument ∧ rest = [] ∧ d' = d) ∨
        ∃ name v first later, '\x00' ∉ name.toList ∧ d.contains name = false ∧
          (v.elementType = type ∧ IsForm l (frames.length + 1) v first) ∧
            AreFieldsAfter l (frames.length + 1) (d.insert name v) d' later ∧ rest = cstring name ++ first ++ later)
      (readType_consumes h) fun type tag r₁ htag hadvances hafter => ?_) fun d' bytes => ?_
    · have hlength : tag.length = 1 := by rw [htag]; rfl
      by_cases hend : type = .endOfDocument
      · rw [if_pos hend]
        rw [AfterTag, if_pos hend, if_neg hkind] at hafter
        refine .congr (.of_ok (p := fun d' => d' = d) (run_pure _ _) hadvances.live.refl (fun _ => Iff.rfl) hafter)
          fun d' rest => ⟨fun hd => .inl ⟨hend, hd⟩, ?_⟩
        rintro (⟨-, hd⟩ | ⟨_, v, _, _, _, _, hv, _⟩)
        · exact hd
        · exact absurd (hv.1.trans hend) (elementType_ne_endOfDocument v)
      · rw [if_neg hend]
        rw [AfterTag, if_neg hend, passed, if_neg hkind] at hafter
        refine .congr (.bind (g := fun name _ d' rest => d.contains name = false ∧ ∃ v first later,
            (v.elementType = type ∧ IsForm l (frames.length + 1) v first) ∧
              AreFieldsAfter l (frames.length + 1) (d.insert name v) d' later ∧ rest = first ++ later)
          (readName_consumes hafter.1 hafter.2) fun name nameBytes r₂ _ _ hnext => ?_) fun d' rest => ?_
        · by_cases hcontains : d.contains name = true
          · rw [if_pos hcontains]
            exact .of_fails ((fails_throw _ _).bind _) fun d' rest hd => Bool.false_ne_true (hd.1.symm.trans hcontains)
          · rw [if_neg hcontains]
            rw [Bool.not_eq_true] at hcontains
            refine .congr (.bind
              (g := fun v _ d' later => AreFieldsAfter l (frames.length + 1) (d.insert name v) d' later)
              ((readValueWithin_consumes fuel hl hnext.1 hnext.2).le (by omega)) fun v first r₃ _ _ hat => ?_)
              fun d' rest => ?_
            · exact (readFieldsWithin_consumes fuel _ hl hat hkind).le (by omega)
            · exact ⟨fun hd => ⟨hcontains, hd⟩, fun hd => hd.2⟩
        · constructor
          · rintro ⟨name, nameBytes, rest, ⟨rfl, hname⟩, ⟨hnew, v, first, later, hv, hlater, rfl⟩, rfl⟩
            exact .inr ⟨name, v, first, later, hname, hnew, hv, hlater, (List.append_assoc _ _ _).symm⟩
          · rintro (⟨hd, -⟩ | ⟨name, v, first, later, hname, hnew, hv, hlater, rfl⟩)
            · exact absurd hd hend
            · exact ⟨name, _, _, ⟨rfl, hname⟩, ⟨hnew, v, first, later, hv, hlater, rfl⟩, List.append_assoc _ _ _⟩
    · rw [areFieldsAfter_iff]
      constructor
      · rintro ⟨type, tag, rest, rfl,
          ⟨rfl, rfl, rfl⟩ | ⟨name, v, first, later, hname, hnew, ⟨rfl, hv⟩, hlater, rfl⟩, rfl⟩
        · exact .inl ⟨rfl, rfl⟩
        · exact .inr ⟨name, v, first, later, hname, hnew, hv, hlater, rfl⟩
      · rintro (⟨rfl, rfl⟩ | ⟨name, v, first, later, hname, hnew, hv, hlater, rfl⟩)
        · exact ⟨.endOfDocument, [0], [], rfl, .inl ⟨rfl, rfl, rfl⟩, rfl⟩
        · exact ⟨v.elementType, _, _, rfl, .inr ⟨name, v, first, later, hname, hnew, ⟨rfl, hv⟩, hlater, rfl⟩, rfl⟩

theorem readArrayWithin_consumes (fuel : Nat) {r : Reader} {frames : List Frame}
    (hl : l.maxDocumentSize < 2147483648) (h : r.At l frames .value) (htype : r.currentType = some .array) :
    Consumes Reader.input (fuel + 1) (readArrayWithin fuel) r
      (fun xs bytes => IsForm l frames.length (.array xs) bytes) fun _ _ r' => r'.At l frames (afterContainer frames) :=
  match fuel with
  | 0 => by
    refine .of_short ⟨_, _, rfl⟩ fun d bytes hd => ?_
    obtain ⟨_, body, _, rfl, _⟩ := hd
    rw [length_container]
    omega
  | fuel + 1 => by
    refine .congr (.bind (g := fun _ word xs rest => declaredLength word = (word ++ rest).length ∧
        ∃ body, rest = body ++ [0] ∧ ItemsAreForms l (frames.length + 1) xs body)
      (startArray_consumes h htype) fun _ word r₁ hword hadvances hnext => ?_) fun xs bytes => ?_
    · obtain ⟨frame, hframe, hat⟩ := hnext
      have hlength : word.length = 4 := by
        obtain ⟨-, n, rfl, -⟩ := hword
        rw [length_littleEndianBytes]
      refine .congr (.bind_check (p := fun xs rest ys => ys = xs ∧ declaredLength word = (word ++ rest).length)
        ((readItemsWithin_consumes fuel hl hat hframe.kind_eq).le (by omega)) fun xs rest r₂ _ hadvances₂ hnext₂ => ?_)
        fun xs rest => ?_
      · obtain ⟨index, hat₂⟩ := hnext₂
        refine .congr (.bind_check (p := fun _ _ ys => ys = xs) (endArray_consumes hat₂ hframe.kind_eq)
          fun _ _ r₃ _ hadvances₃ hat₃ => .of_ok (run_pure _ _) hadvances₃.live.refl (fun _ => Iff.rfl) hat₃)
          fun ys bytes => ?_
        have hcomplete : EndsAt { frame with index } r₂.position ↔ declaredLength word = (word ++ rest).length :=
          endsAt_iff ⟨hframe.kind_eq, hframe.start_eq, hframe.declared_eq⟩ hadvances hadvances₂
        rw [hcomplete]
        exact ⟨fun ⟨_, ⟨hbytes, hlength⟩, hys⟩ => ⟨hbytes, hys, hlength⟩,
          fun ⟨hbytes, hys, hlength⟩ => ⟨(), ⟨hbytes, hlength⟩, hys⟩⟩
      · exact ⟨fun ⟨_, hitems, hxs, hlength⟩ => hxs ▸ ⟨hlength, hitems⟩,
          fun ⟨hlength, hitems⟩ => ⟨xs, hitems, rfl, hlength⟩⟩
    · rw [IsForm]
      constructor
      · rintro ⟨_, word, rest, hword, ⟨hlength, body, rfl, hforms⟩, rfl⟩
        exact (exists_container_iff hl).1 ⟨word, body, hword, hforms, hlength, rfl⟩
      · intro hcontainer
        obtain ⟨word, body, hword, hforms, hlength, rfl⟩ := (exists_container_iff hl).2 hcontainer
        exact ⟨(), word, _, hword, ⟨hlength, body, rfl, hforms⟩, rfl⟩

theorem readItemsWithin_consumes (fuel : Nat) {r : Reader} {frame : Frame} {frames : List Frame}
    (hl : l.maxDocumentSize < 2147483648) (h : r.At l (frame :: frames) .type) (hkind : frame.kind = .array) :
    Consumes Reader.input fuel (readItemsWithin fuel) r
      (fun xs bytes => ∃ body, bytes = body ++ [0] ∧ ItemsAreForms l (frames.length + 1) xs body)
      fun _ _ r' => ∃ index, r'.At l ({ frame with index } :: frames) .endOfArray :=
  match fuel with
  | 0 => .of_short ⟨_, _, rfl⟩ fun _ _ _ => Nat.zero_le _
  | fuel + 1 => by
    refine .congr (.bind (g := fun type _ xs rest => (type = .endOfDocument ∧ rest = [] ∧ xs = []) ∨
        ∃ name v later first after, xs = v :: later ∧ 0 ∉ name ∧
          (v.elementType = type ∧ IsForm l (frames.length + 1) v first) ∧
            (∃ body, after = body ++ [0] ∧ ItemsAreForms l (frames.length + 1) later body) ∧
              rest = name ++ [0] ++ first ++ after)
      (readType_consumes h) fun type tag r₁ htag hadvances hafter => ?_) fun xs bytes => ?_
    · have hlength : tag.length = 1 := by rw [htag]; rfl
      by_cases hend : type = .endOfDocument
      · rw [if_pos hend]
        rw [AfterTag, if_pos hend, if_pos hkind] at hafter
        refine .congr (.of_ok (p := fun xs => xs = []) (run_pure _ _) hadvances.live.refl (fun _ => Iff.rfl)
          ⟨frame.index, hafter⟩) fun xs rest => ⟨fun hxs => .inl ⟨hend, hxs⟩, ?_⟩
        rintro (⟨-, hxs⟩ | ⟨_, v, _, _, _, _, _, hv, _⟩)
        · exact hxs
        · exact absurd (hv.1.trans hend) (elementType_ne_endOfDocument v)
      · rw [if_neg hend]
        rw [AfterTag, if_neg hend, passed, if_pos hkind] at hafter
        refine .congr (.bind (g := fun _ _ xs rest => ∃ v later first after, xs = v :: later ∧
            (v.elementType = type ∧ IsForm l (frames.length + 1) v first) ∧
              (∃ body, after = body ++ [0] ∧ ItemsAreForms l (frames.length + 1) later body) ∧ rest = first ++ after)
          (skipName_consumes hafter.1 hafter.2) fun _ nameBytes r₂ _ _ hnext => ?_) fun xs rest => ?_
        · refine .congr (.bind (g := fun v _ xs after => ∃ later, xs = v :: later ∧
              ∃ body, after = body ++ [0] ∧ ItemsAreForms l (frames.length + 1) later body)
            ((readValueWithin_consumes fuel hl hnext.1 hnext.2).le (by omega)) fun v first r₃ _ _ hat => ?_)
            fun xs rest => ?_
          · refine (((readItemsWithin_consumes fuel hl hat hkind).le (by omega)).bind_pure.congr
              fun xs after => ?_).mono ?_
            · exact ⟨fun ⟨later, hlater, hxs⟩ => ⟨later, hxs, hlater⟩, fun ⟨later, hxs, hlater⟩ => ⟨later, hlater, hxs⟩⟩
            · rintro _ _ _ - - ⟨_, -, hnext'⟩
              exact hnext'
          · constructor
            · rintro ⟨v, first, after, hv, ⟨later, hxs, hlater⟩, hrest⟩
              exact ⟨v, later, first, after, hxs, hv, hlater, hrest⟩
            · rintro ⟨v, later, first, after, hxs, hv, hlater, hrest⟩
              exact ⟨v, first, after, hv, ⟨later, hxs, hlater⟩, hrest⟩
        · constructor
          · rintro ⟨_, nameBytes, rest, ⟨name, rfl, hname⟩, ⟨v, later, first, after, hxs, hv, hlater, rfl⟩, rfl⟩
            exact .inr ⟨name, v, later, first, after, hxs, hname, hv, hlater, (List.append_assoc _ _ _).symm⟩
          · rintro (⟨hd, -⟩ | ⟨name, v, later, first, after, hxs, hname, hv, hlater, rfl⟩)
            · exact absurd hd hend
            · exact ⟨(), _, _, ⟨name, rfl, hname⟩, ⟨v, later, first, after, hxs, hv, hlater, rfl⟩,
                List.append_assoc _ _ _⟩
    · rw [exists_itemsAreForms_iff]
      constructor
      · rintro ⟨type, tag, rest, rfl, ⟨rfl, rfl, rfl⟩ |
          ⟨name, v, later, first, after, rfl, hname, ⟨rfl, hv⟩, hafter, rfl⟩, rfl⟩
        · exact .inl ⟨rfl, rfl⟩
        · exact .inr ⟨name, v, later, first, after, rfl, hname, hv, hafter, rfl⟩
      · rintro (⟨rfl, rfl⟩ | ⟨name, v, later, first, after, rfl, hname, hv, hafter, rfl⟩)
        · exact ⟨.endOfDocument, [0], [], rfl, .inl ⟨rfl, rfl, rfl⟩, rfl⟩
        · exact ⟨v.elementType, _, _, rfl, .inr ⟨name, v, later, first, after, rfl, hname, ⟨rfl, hv⟩, hafter, rfl⟩, rfl⟩

end

end Aggregation.Wire
