import Aggregation.Proofs.Record
import Aggregation.Proofs.Wire.Payloads
import Aggregation.Wire.Decoding

/-! Reading whole documents. The lengths of containers delimit nothing; a container ends with the terminator of its
elements, and its length is compared with what has been read when it closes. So the bytes of a container are known
from its elements, and the comparison says that the length in front of them is theirs. -/

namespace Aggregation

namespace Wire

open Stepping Layout

/-- The length that four bytes declare. -/
def declaredLength (word : List UInt8) : Int := (UInt32.ofNat (littleEndian word)).toInt32.toInt

theorem declaredLength_littleEndianBytes (n : Int32) :
    declaredLength (littleEndianBytes 4 n.toUInt32.toNat) = n.toInt := by
  rw [declaredLength, (littleEndian_eq_toNat32_iff.2 rfl).2, Int32.toInt32_toUInt32]

/-- Four bytes in front of others declare the length of all exactly if they are its bytes. -/
theorem declaredLength_eq_iff {word rest : List UInt8} {l : Limits} (hl : l.maxDocumentSize < 2147483648) :
    (∃ n : Int32, word = littleEndianBytes 4 n.toUInt32.toNat ∧ 0 ≤ n.toInt ∧ n.toInt ≤ l.maxDocumentSize) ∧
        declaredLength word = (word ++ rest).length ↔
      word ++ rest = sized rest ∧ word.length = 4 ∧ l.Bounds (word ++ rest).length := by
  rw [Limits.Bounds, sized]
  constructor
  · rintro ⟨⟨n, rfl, hnonneg, hmax⟩, hn⟩
    rw [declaredLength_littleEndianBytes, List.length_append, length_littleEndianBytes] at hn
    rw [List.length_append, length_littleEndianBytes, toNat_toUInt32_of_nonneg hnonneg, hn]
    exact ⟨by rw [Nat.add_comm]; rfl, rfl, by omega⟩
  · rintro ⟨hsized, hword, hmax⟩
    obtain ⟨rfl, -⟩ := List.append_inj hsized (by rw [hword, length_littleEndianBytes])
    rw [List.length_append, hword] at hmax
    have hn : (Int32.ofNat (rest.length + 4)).toInt = (rest.length + 4 : Nat) := Int32.toInt_ofNat_of_lt (by omega)
    have hnat : (Int32.ofNat (rest.length + 4)).toUInt32.toNat = rest.length + 4 := by
      rw [toNat_toUInt32_of_nonneg (by omega), hn]
      rfl
    refine ⟨⟨Int32.ofNat (rest.length + 4), by rw [hnat], by omega, by omega⟩, ?_⟩
    rw [← hnat, declaredLength_littleEndianBytes, hn, hnat, List.length_append, length_littleEndianBytes, Nat.add_comm]

namespace Reader

open Read

variable {r : Reader} {most : Nat} {l : Limits} {frame : Frame} {frames : List Frame}

/-- A container that has been opened by reading its length. -/
structure Opened (r : Reader) (kind : FrameKind) (word : List UInt8) (frame : Frame) : Prop where
  kind_eq : frame.kind = kind
  start_eq : frame.start = r.position
  declared_eq : frame.declared.toInt = declaredLength word

/-- Opening a container reads its length. -/
theorem openContainer_consumes {state : ReaderState} (h : r.At l frames state) (kind : FrameKind) :
    Consumes Reader.input most (openContainer kind) r
      (fun _ word => frames.length < l.maxNestingDepth ∧ ∃ n : Int32, word = littleEndianBytes 4 n.toUInt32.toNat ∧
        0 ≤ n.toInt ∧ n.toInt ≤ l.maxDocumentSize)
      fun _ word r' => ∃ frame, r.Opened kind word frame ∧ r'.At l (frame :: frames) state := by
  refine .bind_ok (run_get r) rfl ?_
  rw [h.limits_eq, h.frames_eq]
  by_cases hdepth : l.maxNestingDepth < frames.length + 1
  · rw [if_pos hdepth]
    exact .of_fails ((fails_throw _ _).bind _) fun _ word hword => absurd hword.1 (by omega)
  · rw [if_neg hdepth]
    refine .congr (.bind_check (p := fun _ _ _ => True) (length_gives h.live 0)
      fun declared word r' hword hadvances hmoved => ?_) fun _ word => ?_
    · obtain ⟨input, rfl⟩ := hmoved
      refine .of_ok (run_modify _ _) hadvances.live.refl (fun _ => ⟨fun _ => rfl, fun _ => trivial⟩) ?_
      rw [List.append_nil]
      refine ⟨_, ⟨rfl, rfl, ?_⟩, hadvances.live, h.limits_eq, congrArg _ h.frames_eq, h.state_eq⟩
      rw [hword.1, declaredLength_littleEndianBytes]
    · rw [h.limits_eq]
      exact ⟨fun ⟨n, hn, _⟩ => ⟨by omega, n, hn⟩, fun ⟨_, n, hn⟩ => ⟨n, hn, trivial⟩⟩

/-- Closing a container compares its length with what has been read since it was opened. -/
theorem closeContainer_decides {state : ReaderState} (h : r.At l (frame :: frames) state) :
    Decides closeContainer r (((r.position - frame.start : Nat) : Int) = frame.declared.toInt) frame
      { r with frames } := by
  refine .bind_ok (run_get r) ?_
  simp only [h.frames_eq]
  refine .bind_ok (run_set _ _) ?_
  by_cases hlength : ((r.position - frame.start : Nat) : Int) = frame.declared.toInt
  · rw [if_neg (not_not.2 hlength)]
    exact .inl ⟨hlength, rfl⟩
  · rw [if_pos hlength]
    exact .inr ⟨hlength, (fails_throw _ _).bind _⟩

/-- What follows a container that has been closed. -/
def afterContainer (frames : List Frame) : ReaderState := if frames.isEmpty then .done else .type

theorem finishContainer_run {state : ReaderState} (h : r.At l frames state) :
    ∃ r', finishContainer.run.run r = (.ok (), r') ∧ r.input.Advances [] r'.input ∧
      r'.At l frames (afterContainer frames) := by
  have hlimits := h.limits_eq
  have hframes := h.frames_eq
  cases frames with
  | nil =>
      refine ⟨{ r with currentType := none, currentName := none, state := .done, input := r.input.compact }, ?_,
        h.live.advances_compact, h.live.advances_compact.live, hlimits, hframes, rfl⟩
      simp only [finishContainer, endValue, run_bind, run_modify, run_get, hframes, List.isEmpty_nil, reduceIte]
  | cons frame frames =>
      refine ⟨{ r with currentType := none, currentName := none, state := .type }, ?_, h.live.refl, h.live, hlimits,
        hframes, rfl⟩
      simp only [finishContainer, endValue, run_bind, run_modify, run_get, hframes, List.isEmpty_cons]
      rfl

/-- The innermost container after the tag of an element. -/
def passed (frame : Frame) : Frame := if frame.kind = .array then { frame with index := frame.index + 1 } else frame

/-- What follows the tag of a type: the end of the container, or the name of an element. -/
def AfterTag (l : Limits) (frame : Frame) (frames : List Frame) (type : ElementType) (r : Reader) : Prop :=
  if type = .endOfDocument then
    r.At l (frame :: frames) (if frame.kind = .array then .endOfArray else .endOfDocument)
  else r.At l (passed frame :: frames) .name ∧ r.currentType = some type

theorem eq_tag_iff {tag : UInt8} {type : ElementType} (h : ElementType.ofTag? tag = some type) (other : ElementType) :
    tag = other.tag ↔ other = type := by
  constructor
  · rintro rfl
    exact Option.some.inj ((ElementType.ofTag?_tag other).symm.trans h)
  · rintro rfl
    exact (ElementType.tag_of_ofTag? h).symm

/-- What a tag other than the terminator says. The name of an element with an unknown tag is found somehow, and then
the tag is refused. -/
theorem elementTag_consumes {tag : UInt8} (hzero : ¬tag = 0) (h : r.At l (passed frame :: frames) .type) :
    Consumes Reader.input most (elementTag tag) r
      (fun type bytes => bytes = [] ∧ tag = type.tag) fun type _ r' => AfterTag l frame frames type r' := by
  rw [elementTag]
  cases htag : ElementType.ofTag? tag with
  | none =>
      refine .of_fails ?_ fun type bytes htype => ?_
      · refine fails_bind_right (fun leaf r => fails_bind_right (fun r' r => ?_) r) r
        exact fails_bind_right (fun _ r => fails_throw _ r) r
      · rw [htype.2, ElementType.ofTag?_tag] at htag
        cases htag
  | some type =>
      refine .of_ok (run_bind_ok (run_modify _ r)) h.live.refl (eq_tag_iff htag) ?_
      have hne : ¬type = .endOfDocument := by
        rintro rfl
        exact hzero (ElementType.tag_of_ofTag? htag).symm
      rw [AfterTag, if_neg hne]
      exact ⟨⟨h.live, h.limits_eq, h.frames_eq, rfl⟩, rfl⟩

theorem readType_consumes (h : r.At l (frame :: frames) .type) :
    Consumes Reader.input most readType r (fun type bytes => bytes = [type.tag])
      fun type _ r' => AfterTag l frame frames type r' := by
  refine .bind_ok (ensureOpen_run h (by decide)) rfl (.bind_ok (run_get r) rfl ?_)
  simp only [h.state_eq]
  refine .congr (.bind_check (p := fun tag _ type => tag = type.tag) (onInput_consumes (Replay.byte_consumes h.live))
    fun tag first r' _ hadvances hmoved => ?_) fun type bytes => ?_
  · have hat := h.moved hmoved hadvances.live
    refine .bind_ok (run_get r') rfl ?_
    simp only [hat.frames_eq]
    by_cases hzero : tag = 0
    · rw [if_pos hzero]
      refine .of_ok (run_bind_ok (run_modify _ r')) hat.live.refl (eq_tag_iff (by rw [hzero]; rfl)) ?_
      rw [AfterTag, if_pos rfl]
      exact ⟨hat.live, hat.limits_eq, hat.frames_eq, rfl⟩
    · rw [if_neg hzero]
      by_cases harray : frame.kind = .array
      · rw [if_pos harray]
        refine .bind_ok (run_modify _ r') rfl (elementTag_consumes hzero ⟨hat.live, hat.limits_eq, ?_, hat.state_eq⟩)
        rw [passed, if_pos harray]
      · rw [if_neg harray]
        refine elementTag_consumes hzero ?_
        rw [passed, if_neg harray]
        exact hat
  · exact ⟨fun ⟨tag, hbytes, htag⟩ => htag ▸ hbytes, fun hbytes => ⟨_, hbytes, rfl⟩⟩

theorem readName_consumes {type : ElementType} (h : r.At l frames .name) (htype : r.currentType = some type) :
    Consumes Reader.input most readName r (fun name bytes => bytes = cstring name ∧ '\x00' ∉ name.toList)
      fun _ _ r' => r'.At l frames .value ∧ r'.currentType = some type := by
  refine .bind_ok (ensureOpen_run h (by decide)) rfl (.bind_ok (run_get r) rfl ?_)
  rw [if_neg (not_not.2 h.state_eq)]
  refine .bind_ok (offset_run r) rfl
    (text_consumes h.live (fun name r' hnone => ?_) fun name text r' hsome hmoved hlive => ?_)
  · rw [hnone]
    exact fails_throw _ _
  · rw [hsome]
    have hat := h.moved hmoved hlive
    obtain ⟨input, rfl⟩ := hmoved
    exact ⟨_, run_bind_ok (run_modify _ _), rfl, ⟨hat.live, hat.limits_eq, hat.frames_eq, rfl⟩, htype⟩

theorem skipName_consumes {type : ElementType} (h : r.At l frames .name) (htype : r.currentType = some type) :
    Consumes Reader.input most skipName r (fun _ bytes => ∃ name, bytes = name ++ [0] ∧ 0 ∉ name)
      fun _ _ r' => r'.At l frames .value ∧ r'.currentType = some type := by
  refine .bind_ok (ensureOpen_run h (by decide)) rfl (.bind_ok (run_get r) rfl ?_)
  rw [if_neg (not_not.2 h.state_eq)]
  refine .congr (.bind_check (p := fun _ _ _ => True) (cstring_gives h.live).bind_pure
    fun _ first r' _ hadvances hmoved => ?_) fun _ bytes => ?_
  · obtain ⟨_, _, hmoved⟩ := hmoved
    have hat := h.moved hmoved hadvances.live
    obtain ⟨input, rfl⟩ := hmoved
    exact .of_ok (run_modify _ _) hat.live.refl (fun _ => ⟨fun _ => rfl, fun _ => trivial⟩)
      ⟨⟨hat.live, hat.limits_eq, hat.frames_eq, rfl⟩, htype⟩
  · exact ⟨fun ⟨_, ⟨name, hname, _⟩, _⟩ => ⟨name, hname⟩, fun ⟨name, hname⟩ => ⟨_, ⟨name, hname, rfl⟩, trivial⟩⟩

/-- Where a document may be entered, and as what. -/
def MayEnter (r : Reader) (kind : FrameKind) : Prop :=
  (r.state = .initial ∨ r.state = .done) ∧ kind = .document ∨ r.state = .scopeDocument ∧ kind = .scopeDocument ∨
    r.state = .value ∧ r.currentType = some .document ∧ kind = .document

/-- The four bytes in front of a container, where one more may be opened. -/
def IsContainerWord (l : Limits) (frames : List Frame) (word : List UInt8) : Prop :=
  frames.length < l.maxNestingDepth ∧ ∃ n : Int32, word = littleEndianBytes 4 n.toUInt32.toNat ∧
    0 ≤ n.toInt ∧ n.toInt ≤ l.maxDocumentSize

/-- Entering a container. -/
theorem enter_consumes {state : ReaderState} (h : r.At l frames state) (kind : FrameKind) :
    Consumes Reader.input most (openContainer kind >>= fun _ => modify fun r => { r with state := .type }) r
      (fun _ word => IsContainerWord l frames word)
      fun _ word r' => ∃ frame, r.Opened kind word frame ∧ r'.At l (frame :: frames) .type := by
  refine .congr (.bind_check (p := fun _ _ _ => True) (openContainer_consumes h kind)
    fun _ word r' _ hadvances hnext => ?_) fun _ word => ?_
  · obtain ⟨frame, hframe, hat⟩ := hnext
    refine .of_ok (run_modify _ _) hadvances.live.refl (fun _ => ⟨fun _ => rfl, fun _ => trivial⟩) ?_
    rw [List.append_nil]
    exact ⟨frame, hframe, hat.live, hat.limits_eq, hat.frames_eq, rfl⟩
  · exact ⟨fun ⟨_, hword, _⟩ => hword, fun hword => ⟨(), hword, trivial⟩⟩

/-- Where a document may be entered, starting one is entering it. -/
theorem startDocument_run_eq {state : ReaderState} {kind : FrameKind} (h : r.At l frames state)
    (hkind : r.MayEnter kind) :
    startDocument.run.run r =
      (openContainer kind >>= fun _ => modify fun r => { r with state := .type }).run.run r := by
  have hopen : ensureOpen.run.run r = (.ok (), r) := by
    apply ensureOpen_run h
    rw [← h.state_eq]
    rcases hkind with ⟨hs | hs, _⟩ | ⟨hs, _⟩ | ⟨hs, _⟩ <;> rw [hs] <;> decide
  rw [startDocument, run_bind_ok hopen, run_bind_ok (run_get r)]
  rcases hkind with ⟨hs | hs, rfl⟩ | ⟨hs, rfl⟩ | ⟨hs, htype, rfl⟩ <;> simp only [hs]
  · rw [run_bind_ok (run_pure _ r)]
  · rw [run_bind_ok (run_pure _ r)]
  · rw [run_bind_ok (run_pure _ r)]
  · have hexpect : (expectType "read_start_document" .document).run.run r = (.ok (), r) := by
      simp only [expectType, run_bind, run_get, htype, reduceIte, run_pure]
    rw [run_bind_ok hexpect, run_bind_ok (run_pure _ r)]

theorem startDocument_consumes {state : ReaderState} {kind : FrameKind} (h : r.At l frames state)
    (hkind : r.MayEnter kind) :
    Consumes Reader.input most startDocument r (fun _ word => IsContainerWord l frames word)
      fun _ word r' => ∃ frame, r.Opened kind word frame ∧ r'.At l (frame :: frames) .type :=
  .of_run_eq (startDocument_run_eq h hkind) (enter_consumes h kind)

theorem startArray_consumes (h : r.At l frames .value) (htype : r.currentType = some .array) :
    Consumes Reader.input most startArray r (fun _ word => IsContainerWord l frames word)
      fun _ word r' => ∃ frame, r.Opened .array word frame ∧ r'.At l (frame :: frames) .type :=
  .bind_ok (beginValue_run h htype _) rfl (enter_consumes h _)

/-- What has been read since a container was opened is as long as it declared. -/
def EndsAt (frame : Frame) (position : Nat) : Prop :=
  ((position - frame.start : Nat) : Int) = frame.declared.toInt

theorem finishContainer_consumes {state : ReaderState} (h : r.At l frames state) :
    Consumes Reader.input most finishContainer r (fun _ bytes => bytes = [])
      fun _ _ r' => r'.At l frames (afterContainer frames) := by
  obtain ⟨r', hfinish, hadvances, hat⟩ := finishContainer_run h
  refine .congr (.of_ok hfinish hadvances (p := fun _ => True) (fun _ => ⟨fun _ => rfl, fun _ => trivial⟩) hat) ?_
  exact fun _ bytes => and_iff_left trivial

/-- A container is closed where it ends, and then follows what follows it. -/
theorem At.closes {state : ReaderState} (h : r.At l (frame :: frames) state) {rest : Frame → Read Unit}
    {form : Unit → List UInt8 → Prop} {next : Unit → List UInt8 → Reader → Prop}
    (hrest : Reader.At { r with frames } l frames state →
      Consumes Reader.input most (rest frame) { r with frames } form next) :
    Consumes Reader.input most (closeContainer >>= rest) r
      (fun u bytes => EndsAt frame r.position ∧ form u bytes) next := by
  rcases closeContainer_decides h with ⟨hends, hclose⟩ | ⟨hends, hclose⟩
  · refine .bind_ok hclose rfl ((hrest ⟨h.live, h.limits_eq, rfl, h.state_eq⟩).congr fun _ bytes => ?_)
    exact (and_iff_right hends).symm
  · exact .of_fails (hclose.bind _) fun _ bytes hbytes => hends hbytes.1

theorem endDocument_consumes (h : r.At l (frame :: frames) .endOfDocument) (hkind : frame.kind = .document) :
    Consumes Reader.input most endDocument r (fun _ bytes => bytes = [] ∧ EndsAt frame r.position)
      fun _ _ r' => r'.At l frames (afterContainer frames) := by
  refine .bind_ok (ensureOpen_run h (by decide)) rfl (.bind_ok (run_get r) rfl ?_)
  simp only [h.frames_eq, h.state_eq, hkind]
  simp only [reduceCtorEq, or_self, ne_eq, not_true_eq_false, reduceIte]
  refine (h.closes fun hleft => .bind_ok (run_get _) rfl ?_).congr fun _ bytes => and_comm
  simp only [hkind, reduceCtorEq, false_and, reduceIte]
  exact finishContainer_consumes hleft

/-- A scope document and the code around it end together. -/
theorem endScope_consumes {scope around : Frame} (h : r.At l (scope :: around :: frames) .endOfDocument)
    (hscope : scope.kind = .scopeDocument) (haround : around.kind = .scopedCode) :
    Consumes Reader.input most endDocument r
      (fun _ bytes => bytes = [] ∧ EndsAt scope r.position ∧ EndsAt around r.position)
      fun _ _ r' => r'.At l frames (afterContainer frames) := by
  refine .bind_ok (ensureOpen_run h (by decide)) rfl (.bind_ok (run_get r) rfl ?_)
  simp only [h.frames_eq, h.state_eq, hscope]
  simp only [reduceCtorEq, or_self, ne_eq, not_true_eq_false, reduceIte]
  refine (h.closes fun hat => .bind_ok (run_get _) rfl ?_).congr fun _ bytes => and_rotate.symm
  simp only [hscope, haround, List.head?_cons, Option.map_some, and_self, reduceIte, discard_eq_bind, bind_assoc,
    pure_bind]
  exact hat.closes finishContainer_consumes

theorem endArray_consumes (h : r.At l (frame :: frames) .endOfArray) (hkind : frame.kind = .array) :
    Consumes Reader.input most endArray r (fun _ bytes => bytes = [] ∧ EndsAt frame r.position)
      fun _ _ r' => r'.At l frames (afterContainer frames) := by
  refine .bind_ok (ensureOpen_run h (by decide)) rfl (.bind_ok (run_get r) rfl ?_)
  simp only [h.frames_eq, h.state_eq, hkind, List.head?_cons, Option.map_some, ne_eq, not_true_eq_false, reduceIte,
    discard_eq_bind, bind_assoc, pure_bind]
  exact (h.closes finishContainer_consumes).congr fun _ bytes => and_comm

end Reader

end Wire

end Aggregation
