import Aggregation.Proofs.Wire.Layout
import Aggregation.Proofs.Wire.Steps
import Aggregation.Wire.Encoding

/-! What a writer puts together. Each step appends to the pending bytes, a container opens with four bytes of zero,
and closing it puts its length in their place, so the pending bytes of a value that has been written are its
layout. Beside that stands when a writer takes a value, container by container. -/

namespace Aggregation.Wire

open Stepping Layout

namespace Limits

/-- Whether a container of a size may be closed. A negative limit is none. -/
def Closes (l : Limits) (size : Nat) : Prop := l.maxDocumentSize < 0 ∨ (size : Int) ≤ l.maxDocumentSize

end Limits

mutual

/-- Whether a writer with a number of open containers takes a value. -/
def Admits (l : Limits) (opened : Nat) : Value → Prop
  | .document ⟨fields⟩ =>
    opened < l.maxNestingDepth ∧ AdmitsElements l (opened + 1) fields ∧ l.Closes (container (elements fields)).length
  | .array xs =>
    opened < l.maxNestingDepth ∧ AdmitsItems l (opened + 1) xs ∧ l.Closes (container (items 0 xs)).length
  | .regularExpression pattern options => '\x00' ∉ pattern.toList ∧ '\x00' ∉ options.toList
  | .scopedCode code ⟨fields⟩ =>
    opened < l.maxNestingDepth ∧ opened + 1 < l.maxNestingDepth ∧ AdmitsElements l (opened + 2) fields ∧
      l.Closes (container (elements fields)).length ∧
      l.Closes (sized (text code ++ container (elements fields))).length
  | _ => True

/-- Whether a writer takes named values. -/
def AdmitsElements (l : Limits) (opened : Nat) : List (String × Value) → Prop
  | [] => True
  | (name, v) :: rest => '\x00' ∉ name.toList ∧ Admits l opened v ∧ AdmitsElements l opened rest

/-- Whether a writer takes items. -/
def AdmitsItems (l : Limits) (opened : Nat) : List Value → Prop
  | [] => True
  | v :: rest => Admits l opened v ∧ AdmitsItems l opened rest

end

theorem appendList_appendList {α : Type} (a : Array α) (x y : List α) :
    (a.appendList x).appendList y = a.appendList (x ++ y) := by
  simp only [Array.appendList_eq_append]
  apply Array.toList_inj.1
  simp

namespace Write

/-- Putting bytes in the place of as many. -/
theorem patch_appendList (before : Array UInt8) (old new rest : List UInt8) (h : old.length = new.length) :
    patch (before.appendList (old ++ rest)) before.size new = before.appendList (new ++ rest) := by
  induction new generalizing before old with
  | nil =>
      rw [List.length_nil, List.length_eq_zero_iff] at h
      rw [h]
      rfl
  | cons b new ih =>
      obtain ⟨o, old, rfl⟩ := List.exists_cons_of_length_eq_add_one h
      have hset : (before.appendList (o :: old ++ rest)).setIfInBounds before.size b =
          (before.push b).appendList (old ++ rest) := by
        apply Array.toList_inj.1
        simp [Array.appendList_eq_append]
      have hlength : old.length = new.length := by simpa using h
      have hnext := ih (before.push b) old hlength
      rw [Array.size_push] at hnext
      rw [patch, hset, hnext]
      apply Array.toList_inj.1
      simp [Array.appendList_eq_append]

end Write

namespace Writer

/-- The writer with more pending bytes. -/
def append (w : Writer) (bytes : List UInt8) : Writer := { w with pending := w.pending.appendList bytes }

theorem append_append (w : Writer) (x y : List UInt8) : (w.append x).append y = w.append (x ++ y) := by
  simp only [append, appendList_appendList]

@[simp] theorem append_state (w : Writer) (bytes : List UInt8) : (w.append bytes).state = w.state := rfl

@[simp] theorem append_frames (w : Writer) (bytes : List UInt8) : (w.append bytes).frames = w.frames := rfl

@[simp] theorem append_limits (w : Writer) (bytes : List UInt8) : (w.append bytes).limits = w.limits := rfl

@[simp] theorem append_isReleased (w : Writer) (bytes : List UInt8) : (w.append bytes).isReleased = w.isReleased := rfl

@[simp] theorem append_pendingName (w : Writer) (bytes : List UInt8) :
    (w.append bytes).pendingName = w.pendingName :=
  rfl

/-- A value may be written: the innermost container is an array and gives the name, or it is a document and the
name has been written. `frame` is that container after the name has been taken. -/
structure Ready (w : Writer) (name : String) (frame : OpenFrame) (frames : List OpenFrame) : Prop where
  held : w.isReleased = false
  state_eq : w.state = .value
  name_eq : (∃ before : OpenFrame, w.frames = before :: frames ∧ before.kind = .array ∧ w.pendingName = none ∧
      name = toString before.index ∧ frame = { before with index := before.index + 1 }) ∨
    (w.frames = frame :: frames ∧ frame.kind ≠ .array ∧ w.pendingName = some name)

/-- What may follow a value in a container. -/
def afterValue (frame : OpenFrame) : WriterState := if frame.kind = .array then .value else .name

/-- The innermost container is `frame`, and its next element has not been begun. -/
structure Between (w : Writer) (frame : OpenFrame) (frames : List OpenFrame) : Prop where
  held : w.isReleased = false
  state_eq : w.state = afterValue frame
  pendingName_eq : w.pendingName = none
  frames_eq : w.frames = frame :: frames

/-- The writer after an element has been written into its innermost container. -/
def wrote (w : Writer) (frame : OpenFrame) (frames : List OpenFrame) (bytes : List UInt8) : Writer :=
  { w with
    state := afterValue frame, pending := w.pending.appendList bytes, pendingName := none, frames := frame :: frames }

end Writer

namespace Write

open Writer

/-- A step that appends bytes if a condition holds. -/
def Puts (step : Write Unit) (p : Prop) (bytes : List UInt8) : Prop :=
  ∀ w : Writer, Decides step w p () (w.append bytes)

theorem put_run (bytes : List UInt8) (w : Writer) : (put bytes).run.run w = (.ok (), w.append bytes) := rfl

theorem puts_put (bytes : List UInt8) : Puts (put bytes) True bytes := fun _ => .of_ok rfl

theorem puts_pure : Puts (pure ()) True [] := fun _ => .of_ok rfl

theorem puts_refuseNul (text : String) : Puts (refuseNul text) ('\x00' ∉ text.toList) [] := by
  intro w
  by_cases h : '\x00' ∈ text.toList
  · refine .inr ⟨fun hn => hn h, .invalidName (shown text), w, ?_⟩
    rw [refuseNul, if_pos (List.contains_iff_mem.2 h)]
    rfl
  · refine .inl ⟨h, ?_⟩
    rw [refuseNul, if_neg (by simpa using h)]
    rfl

/-- Steps that append, one after the other. -/
theorem Puts.bind {step step' : Write Unit} {p q : Prop} {bytes bytes' : List UInt8} (h : Puts step p bytes)
    (h' : Puts step' q bytes') : Puts (step >>= fun _ => step') (p ∧ q) (bytes ++ bytes') := by
  intro w
  have hbind := (h w).bind (f := fun _ => step') fun _ => h' (w.append bytes)
  rwa [append_append] at hbind

theorem Puts.congr {step : Write Unit} {p q : Prop} {bytes : List UInt8} (h : Puts step p bytes) (hpq : p ↔ q) :
    Puts step q bytes := fun w => (h w).congr hpq

theorem ensureOpen_run {w : Writer} (h : w.isReleased = false) (hstate : w.state ≠ .closed) :
    ensureOpen.run.run w = (.ok (), w) := by
  have hopen : w.isClosed = false := by simp only [isClosed, h, decide_eq_false hstate, Bool.or_false]
  simp only [ensureOpen, run_bind, run_get, hopen]
  rfl

/-- Taking the name of the next element. -/
theorem takeName_run {w : Writer} {name : String} {frame : OpenFrame} {frames : List OpenFrame}
    (h : w.Ready name frame frames) (operation : String) :
    (takeName operation).run.run w = (.ok name, { w with frames := frame :: frames, pendingName := none }) := by
  rcases h.name_eq with ⟨before, hframes, hkind, hpending, rfl, rfl⟩ | ⟨hframes, hkind, hpending⟩
  · simp only [takeName, run_bind, run_get, hframes, hkind, reduceIte, run_set, run_pure, ← hpending]
  · simp only [takeName, run_bind, run_get, hframes, hkind, reduceIte, hpending, run_set, run_pure]

theorem beginValue_run {w : Writer} {name : String} {frame : OpenFrame} {frames : List OpenFrame}
    (h : w.Ready name frame frames) (operation : String) (type : ElementType) :
    (beginValue operation type).run.run w =
      (.ok (), { w.append (head type (Utf8.encode name)) with frames := frame :: frames, pendingName := none }) := by
  have hput := appendList_appendList w.pending [type.tag] (Utf8.encode name ++ [0])
  have hopen := ensureOpen_run h.held (by rw [h.state_eq]; decide)
  simp only [beginValue, putCstring, put, run_bind, hopen, run_get, h.state_eq, ne_eq,
    not_true_eq_false, reduceIte, takeName_run h, run_modify, hput, append, head, List.cons_append, List.nil_append]

theorem endValue_run {w : Writer} {frame : OpenFrame} {frames : List OpenFrame} (h : w.frames = frame :: frames) :
    endValue.run.run w = (.ok (), { w with state := afterValue frame }) := by
  simp only [endValue, run_bind, run_get, h, run_modify, afterValue]

/-- Opening a container. -/
theorem openContainer_decides (kind : FrameKind) (w : Writer) :
    Decides (openContainer kind) w (w.frames.length < w.limits.maxNestingDepth) ()
      { w.append [0, 0, 0, 0] with frames := ⟨kind, w.pending.size, 0⟩ :: w.frames } := by
  by_cases h : w.frames.length < w.limits.maxNestingDepth
  · have hdepth : ¬ w.limits.maxNestingDepth < w.frames.length + 1 := by omega
    refine .inl ⟨h, ?_⟩
    simp only [openContainer, put, run_bind, run_get, hdepth, reduceIte, run_modify, append]
  · have hdepth : w.limits.maxNestingDepth < w.frames.length + 1 := by omega
    refine .inr ⟨h, .nestingTooDeep (w.frames.length + 1) w.limits.maxNestingDepth, w, ?_⟩
    simp only [openContainer, run_bind, run_get, hdepth, reduceIte, run_throw]

/-- Closing a container whose length stands behind `before`. -/
theorem closeContainer_decides (w : Writer) (before : Array UInt8) (body : List UInt8) {frame : OpenFrame}
    {frames : List OpenFrame} (hpending : w.pending = before.appendList ([0, 0, 0, 0] ++ body))
    (hframes : w.frames = frame :: frames) (hstart : frame.start = before.size) :
    Decides closeContainer w (w.limits.Closes (sized body).length) frame.kind
      { w with frames, pending := before.appendList (sized body) } := by
  have hsize : w.pending.size - frame.start = body.length + 4 := by
    rw [hpending, hstart]
    simp only [Array.appendList_eq_append, ← Array.length_toList, Array.toList_appendList, List.length_append,
      List.length_cons, List.length_nil]
    omega
  have hpatch : patch w.pending frame.start (littleEndianBytes 4 (body.length + 4)) =
      before.appendList (sized body) := by
    have hzeros : [(0 : UInt8), 0, 0, 0].length = (littleEndianBytes 4 (body.length + 4)).length := by
      rw [length_littleEndianBytes]
      rfl
    rw [hpending, hstart, patch_appendList _ _ _ _ hzeros, sized]
  rw [length_sized, Limits.Closes]
  by_cases h : 0 ≤ w.limits.maxDocumentSize ∧ w.limits.maxDocumentSize < (body.length + 4 : Nat)
  · refine .inr ⟨by omega, .documentTooLarge (body.length + 4 : Nat) w.limits.maxDocumentSize,
      { w with frames }, ?_⟩
    simp only [closeContainer, run_bind, run_get, hframes, hsize, if_pos h, run_set, run_throw]
  · refine .inl ⟨by omega, ?_⟩
    simp only [closeContainer, run_bind, run_get, hframes, hsize, if_neg h, hpatch, run_set, run_pure]

end Write

namespace Writer

open Write

/-- The innermost container begins where some bytes end, and it has its elements but not its terminator. -/
structure Holds (w : Writer) (before : Array UInt8) (elements : List UInt8) (frame : OpenFrame)
    (frames : List OpenFrame) : Prop where
  held : w.isReleased = false
  frames_eq : w.frames = frame :: frames
  pending_eq : w.pending = before.appendList ([0, 0, 0, 0] ++ elements)
  start_eq : frame.start = before.size

/-- A container is terminated and closed, and then follows what follows it. -/
theorem Holds.closes {w t : Writer} {before : Array UInt8} {elements : List UInt8} {frame : OpenFrame}
    {frames : List OpenFrame} (h : w.Holds before elements frame frames) {rest : FrameKind → Write Unit} {p : Prop}
    (hrest : Decides (rest frame.kind) { w with frames, pending := before.appendList (container elements) } p () t) :
    Decides (do put [0]; let closed ← closeContainer; rest closed) w
      (w.limits.Closes (container elements).length ∧ p) () t := by
  refine .bind_ok (put_run [0] w) ?_
  have hput : (w.append [0]).pending = before.appendList ([0, 0, 0, 0] ++ (elements ++ [0])) := by
    rw [append, h.pending_eq, appendList_appendList, List.append_assoc]
  exact (closeContainer_decides (w.append [0]) before _ hput h.frames_eq h.start_eq).bind fun _ => hrest

/-- Writing a value that is no container. -/
theorem writeScalar_decides {w : Writer} {name : String} {frame : OpenFrame} {frames : List OpenFrame}
    (h : w.Ready name frame frames) (operation : String) (type : ElementType) {payload : Write Unit} {p : Prop}
    {bytes : List UInt8} (hp : Puts payload p bytes) :
    Decides (writeScalar operation type payload) w p ()
      (w.wrote frame frames (head type (Utf8.encode name) ++ bytes)) := by
  refine .bind_ok (beginValue_run h operation type) ((hp _).bind_pure ?_)
  rw [endValue_run rfl]
  simp only [append, wrote, appendList_appendList]

/-- Opening a document where no name comes before it. -/
theorem startDocument_decides {w : Writer} (kind : FrameKind) (hheld : w.isReleased = false)
    (hkind : (w.state = .initial ∨ w.state = .done) ∧ kind = .document ∨
      w.state = .scopeDocument ∧ kind = .scopeDocument) :
    Decides startDocument w (w.frames.length < w.limits.maxNestingDepth) ()
      { w.append [0, 0, 0, 0] with state := .name, frames := ⟨kind, w.pending.size, 0⟩ :: w.frames } := by
  have hopen : ensureOpen.run.run w = (.ok (), w) := by
    apply ensureOpen_run hheld
    rcases hkind with ⟨h | h, _⟩ | ⟨h, _⟩ <;> rw [h] <;> decide
  refine .bind_ok hopen (.bind_ok (run_get w) ?_)
  rcases hkind with ⟨h | h, rfl⟩ | ⟨h, rfl⟩ <;> simp only [h]
  all_goals
    refine .bind_ok (run_pure _ w) ?_
    exact (openContainer_decides _ w).bind_pure rfl

/-- Opening a document as a value. -/
theorem startDocument_decides_value {w : Writer} {name : String} {frame : OpenFrame} {frames : List OpenFrame}
    (h : w.Ready name frame frames) :
    Decides startDocument w (frames.length + 1 < w.limits.maxNestingDepth) ()
      { w.append (head .document (Utf8.encode name) ++ [0, 0, 0, 0]) with
        state := .name, pendingName := none
        frames := ⟨.document, (w.append (head .document (Utf8.encode name))).pending.size, 0⟩ :: frame :: frames } := by
  have hopen := ensureOpen_run h.held (by rw [h.state_eq]; decide)
  refine .bind_ok hopen (.bind_ok (run_get w) ?_)
  simp only [h.state_eq]
  refine .bind_ok (beginValue_run h _ _) ?_
  refine .bind_ok (run_pure _ _) ?_
  refine (openContainer_decides _ _).bind_pure ?_
  simp only [append, run_modify, appendList_appendList]

/-- Closing a document, and what follows it as a value. -/
theorem endDocument_decides {w t : Writer} (before : Array UInt8) (elements : List UInt8) {frame : OpenFrame}
    {frames : List OpenFrame} (h : w.Holds before elements frame frames) (hstate : w.state = .name)
    (hkind : frame.kind = .document)
    (hend : endValue.run.run { w with frames, pending := before.appendList (container elements) } = (.ok (), t)) :
    Decides endDocument w (w.limits.Closes (container elements).length) () t := by
  have hopen := ensureOpen_run h.held (by rw [hstate]; decide)
  refine .bind_ok hopen (.bind_ok (run_get w) ?_)
  simp only [h.frames_eq, List.head?_cons, Option.map_some, hkind, hstate]
  simp only [ne_eq, not_true_eq_false, reduceIte]
  refine (h.closes (p := True) ?_).congr (and_true _).to_iff
  simp only [hkind, reduceCtorEq, reduceIte]
  exact .of_ok hend

/-- Closing a scope document in a container, and with it the code around it. -/
theorem endScope_decides {w : Writer} (before : Array UInt8) (code elements : List UInt8)
    {scope around outer : OpenFrame} {frames : List OpenFrame}
    (h : w.Holds (before.appendList ([0, 0, 0, 0] ++ code)) elements scope (around :: outer :: frames))
    (hstate : w.state = .name) (hkind : scope.kind = .scopeDocument) (haround : around.start = before.size) :
    Decides endDocument w
      (w.limits.Closes (container elements).length ∧ w.limits.Closes (sized (code ++ container elements)).length) ()
      { w with
        state := afterValue outer, frames := outer :: frames
        pending := before.appendList (sized (code ++ container elements)) } := by
  have hopen := ensureOpen_run h.held (by rw [hstate]; decide)
  refine .bind_ok hopen (.bind_ok (run_get w) ?_)
  simp only [h.frames_eq, List.head?_cons, Option.map_some, hkind, hstate, ne_eq, not_true_eq_false, reduceIte]
  refine h.closes ?_
  have houter : (before.appendList ([0, 0, 0, 0] ++ code)).appendList (container elements) =
      before.appendList ([0, 0, 0, 0] ++ (code ++ container elements)) := by
    rw [appendList_appendList, List.append_assoc]
  simp only [hkind, reduceIte]
  rw [houter]
  have hclose := closeContainer_decides
    { w with
      frames := around :: outer :: frames
      pending := before.appendList ([0, 0, 0, 0] ++ (code ++ container elements)) }
    before _ rfl rfl haround
  refine (hclose.bind_pure (f := fun _ => pure ()) rfl).bind_pure ?_
  exact endValue_run rfl

/-- Opening an array. -/
theorem startArray_decides {w : Writer} {name : String} {frame : OpenFrame} {frames : List OpenFrame}
    (h : w.Ready name frame frames) :
    Decides startArray w (frames.length + 1 < w.limits.maxNestingDepth) ()
      { w.append (head .array (Utf8.encode name) ++ [0, 0, 0, 0]) with
        state := .value, pendingName := none
        frames := ⟨.array, (w.append (head .array (Utf8.encode name))).pending.size, 0⟩ :: frame :: frames } := by
  refine .bind_ok (beginValue_run h _ _) ((openContainer_decides _ _).bind_pure ?_)
  simp only [append, run_modify, appendList_appendList]

/-- Closing an array, and what follows it as a value. -/
theorem endArray_decides {w t : Writer} (before : Array UInt8) (elements : List UInt8) {frame : OpenFrame}
    {frames : List OpenFrame} (h : w.Holds before elements frame frames) (hstate : w.state = .value)
    (hkind : frame.kind = .array)
    (hend : endValue.run.run { w with frames, pending := before.appendList (container elements) } = (.ok (), t)) :
    Decides endArray w (w.limits.Closes (container elements).length) () t := by
  have hopen := ensureOpen_run h.held (by rw [hstate]; decide)
  refine .bind_ok hopen (.bind_ok (run_get w) ?_)
  simp only [h.frames_eq, List.head?_cons, Option.map_some, hkind, ne_eq, not_true_eq_false, reduceIte,
    discard_eq_bind, bind_assoc, pure_bind]
  exact (h.closes (p := True) (.of_ok hend)).congr (and_true _).to_iff

/-- Opening code with a scope. -/
theorem writeScopedCode_decides {w : Writer} {name : String} {frame : OpenFrame} {frames : List OpenFrame}
    (h : w.Ready name frame frames) (code : String) :
    Decides (writeScopedCode code) w (frames.length + 1 < w.limits.maxNestingDepth) ()
      { w.append (head .scopedCode (Utf8.encode name) ++ [0, 0, 0, 0] ++ text code) with
        state := .scopeDocument, pendingName := none
        frames :=
          ⟨.scopedCode, (w.append (head .scopedCode (Utf8.encode name))).pending.size, 0⟩ :: frame :: frames } := by
  refine .bind_ok (beginValue_run h _ _) ((openContainer_decides _ _).bind_pure ?_)
  simp only [append, putString, put, run_bind, run_modify, appendList_appendList, text]

/-- Writing a name where one may stand. -/
theorem writeName_decides {w : Writer} (hheld : w.isReleased = false) (hstate : w.state = .name) (name : String) :
    Decides (writeName name) w ('\x00' ∉ name.toList) () { w with pendingName := some name, state := .value } := by
  have hopen := ensureOpen_run hheld (by rw [hstate]; decide)
  refine .bind_ok hopen (.bind_ok (run_get w) ?_)
  simp only [hstate, ne_eq, not_true_eq_false, reduceIte]
  exact (puts_refuseNul name w).bind_pure rfl

theorem puts_putBinary (subtype : UInt8) (bytes : List UInt8) :
    Puts (putBinary subtype bytes) True (binary subtype bytes) := by
  rw [putBinary, binary, binaryContent]
  split_ifs
  · rw [List.length_append, length_littleEndianBytes, Nat.add_comm 4, ← List.append_assoc]
    exact puts_put _
  · exact puts_put _

theorem puts_regularExpression (pattern options : String) :
    Puts (do refuseNul pattern; putCstring pattern; refuseNul options; putCstring options)
      ('\x00' ∉ pattern.toList ∧ '\x00' ∉ options.toList) (cstring pattern ++ cstring options) := by
  have hoptions := (puts_refuseNul options).bind (puts_put (cstring options))
  have hall := (puts_refuseNul pattern).bind ((puts_put (cstring pattern)).bind hoptions)
  simp only [true_and, and_true, List.nil_append] at hall
  exact hall

theorem puts_dbPointer (collection : String) (id : ObjectId) :
    Puts (do putString collection; put id.bytes) True (text collection ++ id.bytes) :=
  ((puts_put (text collection)).bind (puts_put id.bytes)).congr (and_true True).to_iff

mutual

/-- A value is written if the writer admits it, and its layout is what is written. -/
theorem writeValue_decides {w : Writer} {name : String} {frame : OpenFrame} {frames : List OpenFrame}
    (h : w.Ready name frame frames) : ∀ v : Value,
      Decides (writeValue v) w (Admits w.limits (frames.length + 1) v) ()
        (w.wrote frame frames (head v.elementType (Utf8.encode name) ++ value v))
  | .document ⟨fields⟩ => by
    let before := (w.append (head .document (Utf8.encode name))).pending
    refine .bind (startDocument_decides_value h) fun _ => ?_
    refine .bind (writeFields_decides fields ⟨?_, rfl, rfl, rfl⟩ nofun) fun _ => ?_
    · exact h.held
    refine .of_eq (endDocument_decides before (elements fields) ⟨h.held, rfl, ?_, rfl⟩ rfl rfl (endValue_run rfl)) ?_
    · simp only [before, append, appendList_appendList, List.append_assoc]
    · simp only [before, append, wrote, appendList_appendList]
      rfl
  | .array xs => by
    let before := (w.append (head .array (Utf8.encode name))).pending
    refine .bind (startArray_decides h) fun _ => ?_
    refine .bind (writeItems_decides xs ⟨?_, rfl, rfl, rfl⟩ rfl) fun _ => ?_
    · exact h.held
    refine .of_eq (endArray_decides before (items 0 xs) ⟨h.held, rfl, ?_, rfl⟩ rfl rfl (endValue_run rfl)) ?_
    · simp only [before, append, appendList_appendList, List.append_assoc]
    · simp only [before, append, wrote, appendList_appendList]
      rfl
  | .scopedCode code ⟨fields⟩ => by
    let before := (w.append (head .scopedCode (Utf8.encode name))).pending
    refine .bind (writeScopedCode_decides h code) fun _ => ?_
    refine .bind (startDocument_decides .scopeDocument h.held (.inr ⟨rfl, rfl⟩)) fun _ => ?_
    refine .bind (writeFields_decides fields ⟨?_, rfl, rfl, rfl⟩ nofun) fun _ => ?_
    · exact h.held
    refine .of_eq (endScope_decides before (text code) (elements fields) ⟨h.held, rfl, ?_, ?_⟩ rfl rfl rfl) ?_
    · simp only [before, append, appendList_appendList, List.append_assoc]
    · simp only [before, append, appendList_appendList, List.append_assoc]
    · simp only [before, append, wrote, appendList_appendList]
      rfl
  | .double _ => writeScalar_decides h _ _ (puts_put _)
  | .string _ => writeScalar_decides h _ _ (puts_put _)
  | .binary _ _ => writeScalar_decides h _ _ (puts_putBinary _ _)
  | .undefined => writeScalar_decides h _ _ puts_pure
  | .objectId _ => writeScalar_decides h _ _ (puts_put _)
  | .boolean _ => writeScalar_decides h _ _ (puts_put _)
  | .dateTime _ => writeScalar_decides h _ _ (puts_put _)
  | .null => writeScalar_decides h _ _ puts_pure
  | .regularExpression _ _ => writeScalar_decides h _ _ (puts_regularExpression _ _)
  | .dbPointer _ _ => writeScalar_decides h _ _ (puts_dbPointer _ _)
  | .javaScript _ => writeScalar_decides h _ _ (puts_put _)
  | .symbol _ => writeScalar_decides h _ _ (puts_put _)
  | .int32 _ => writeScalar_decides h _ _ (puts_put _)
  | .timestamp _ _ => writeScalar_decides h _ _ (puts_put _)
  | .int64 _ => writeScalar_decides h _ _ (puts_put _)
  | .decimal128 _ => writeScalar_decides h _ _ (puts_put _)
  | .minKey => writeScalar_decides h _ _ puts_pure
  | .maxKey => writeScalar_decides h _ _ puts_pure

theorem writeFields_decides (fields : List (String × Value)) {w : Writer} {frame : OpenFrame}
    {frames : List OpenFrame} (h : w.Between frame frames) (hkind : frame.kind ≠ .array) :
    Decides (writeFields fields) w (AdmitsElements w.limits w.frames.length fields) ()
      (w.append (elements fields)) :=
  match fields with
  | [] => .of_ok rfl
  | (name, v) :: rest => by
    have hstate : w.state = .name := h.state_eq.trans (if_neg hkind)
    have hready : Ready { w with pendingName := some name, state := .value } name frame frames :=
      ⟨h.held, rfl, .inr ⟨h.frames_eq, hkind, rfl⟩⟩
    rw [h.frames_eq]
    refine .bind (writeName_decides h.held hstate name) fun _ => ?_
    refine .bind (writeValue_decides hready v) fun _ => ?_
    refine .of_eq (writeFields_decides rest ⟨?_, rfl, rfl, rfl⟩ hkind) ?_
    · exact h.held
    simp only [append, wrote, appendList_appendList, elements, ← h.state_eq, ← h.frames_eq, ← h.pendingName_eq]

theorem writeItems_decides (xs : List Value) {w : Writer} {frame : OpenFrame} {frames : List OpenFrame}
    (h : w.Between frame frames) (hkind : frame.kind = .array) :
    Decides (writeItems xs) w (AdmitsItems w.limits w.frames.length xs) ()
      { w.append (items frame.index xs) with
        frames := { frame with index := frame.index + xs.length } :: frames } :=
  match xs with
  | [] => .of_eq (.of_ok rfl) (by rw [List.length_nil, Nat.add_zero, ← h.frames_eq]; rfl)
  | v :: rest => by
    have hstate : w.state = .value := h.state_eq.trans (if_pos hkind)
    have hready : w.Ready (toString frame.index) { frame with index := frame.index + 1 } frames :=
      ⟨h.held, hstate, .inl ⟨frame, h.frames_eq, hkind, h.pendingName_eq, rfl, rfl⟩⟩
    rw [h.frames_eq]
    refine .bind (writeValue_decides hready v) fun _ => ?_
    refine .of_eq (writeItems_decides rest ⟨?_, rfl, rfl, rfl⟩ hkind) ?_
    · exact h.held
    simp only [append, wrote, appendList_appendList, afterValue, if_pos hkind, items, h.pendingName_eq, hstate,
      List.length_cons, Nat.add_assoc, Nat.add_comm 1]

end

end Writer

end Aggregation.Wire
