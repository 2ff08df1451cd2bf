import Aggregation.Proofs.Wire.Writing

/-! When a document can be written, and what the sink then has. A writer checks a name when it comes, a depth when a
container opens and a size when it closes; together these are three conditions on the document as a whole, since the
sizes of inner containers are below that of the document. -/

namespace Aggregation.Wire

open Stepping Layout

mutual

/-- Where a value fits as a whole, a writer takes it if no name holds a NUL and it is not nested too deep. -/
theorem admits_iff {l : Limits} {opened : Nat} (ho : opened ≤ l.maxNestingDepth) : ∀ v : Value,
    ((value v).length : Int) ≤ l.maxDocumentSize →
      (Admits l opened v ↔ IsNulFree v ∧ opened + depth v ≤ l.maxNestingDepth)
  | .document ⟨fields⟩, hsize => by
    have hlength : ((elements fields).length + 5 : Int) ≤ l.maxDocumentSize := by
      rw [value, length_container] at hsize
      exact_mod_cast hsize
    rw [Admits, IsNulFree, depth, Limits.Closes, length_container]
    by_cases hopen : opened < l.maxNestingDepth
    · rw [admitsElements_iff hopen fields (by omega)]
      exact ⟨fun h => ⟨h.2.1.1, by omega⟩, fun h => ⟨hopen, ⟨h.1, by omega⟩, by omega⟩⟩
    · exact ⟨fun h => absurd h.1 hopen, fun h => absurd h.2 (by omega)⟩
  | .array xs, hsize => by
    have hlength : ((items 0 xs).length + 5 : Int) ≤ l.maxDocumentSize := by
      rw [value, length_container] at hsize
      exact_mod_cast hsize
    rw [Admits, IsNulFree, depth, Limits.Closes, length_container]
    by_cases hopen : opened < l.maxNestingDepth
    · rw [admitsItems_iff hopen xs 0 (by omega)]
      exact ⟨fun h => ⟨h.2.1.1, by omega⟩, fun h => ⟨hopen, ⟨h.1, by omega⟩, by omega⟩⟩
    · exact ⟨fun h => absurd h.1 hopen, fun h => absurd h.2 (by omega)⟩
  | .scopedCode code ⟨fields⟩, hsize => by
    have hlength : ((text code).length + ((elements fields).length + 5) + 4 : Int) ≤ l.maxDocumentSize := by
      rw [value, length_sized, List.length_append, length_container] at hsize
      exact_mod_cast hsize
    rw [Admits, IsNulFree, depth, Limits.Closes, Limits.Closes, length_sized, List.length_append, length_container]
    by_cases hopen : opened + 1 < l.maxNestingDepth
    · rw [admitsElements_iff hopen fields (by omega)]
      exact ⟨fun h => ⟨h.2.2.1.1, by omega⟩,
        fun h => ⟨by omega, hopen, ⟨h.1, by omega⟩, by omega, by omega⟩⟩
    · exact ⟨fun h => absurd h.2.1 hopen, fun h => absurd h.2 (by omega)⟩
  | .regularExpression _ _, _ => ⟨fun h => ⟨h, ho⟩, fun h => h.1⟩
  | .double _, _ | .string _, _ | .binary _ _, _ | .undefined, _ | .objectId _, _ | .boolean _, _ | .dateTime _, _
  | .null, _ | .dbPointer _ _, _ | .javaScript _, _ | .symbol _, _ | .int32 _, _ | .timestamp _ _, _ | .int64 _, _
  | .decimal128 _, _ | .minKey, _ | .maxKey, _ => ⟨fun h => ⟨h, ho⟩, fun h => h.1⟩

theorem admitsElements_iff {l : Limits} {opened : Nat} (ho : opened ≤ l.maxNestingDepth) :
    ∀ fields : List (String × Value), ((elements fields).length : Int) ≤ l.maxDocumentSize →
      (AdmitsElements l opened fields ↔ AreNulFree fields ∧ opened + elementsDepth fields ≤ l.maxNestingDepth)
  | [], _ => ⟨fun h => ⟨h, ho⟩, fun h => h.1⟩
  | (name, v) :: rest, hsize => by
    rw [elements, List.length_append, List.length_append] at hsize
    rw [AdmitsElements, AreNulFree, elementsDepth, admits_iff ho v (by omega),
      admitsElements_iff ho rest (by omega)]
    exact ⟨fun h => ⟨⟨h.1, h.2.1.1, h.2.2.1⟩, by omega⟩,
      fun h => ⟨h.1.1, ⟨h.1.2.1, by omega⟩, h.1.2.2, by omega⟩⟩

theorem admitsItems_iff {l : Limits} {opened : Nat} (ho : opened ≤ l.maxNestingDepth) :
    ∀ (xs : List Value) (index : Nat), ((items index xs).length : Int) ≤ l.maxDocumentSize →
      (AdmitsItems l opened xs ↔ ItemsAreNulFree xs ∧ opened + itemsDepth xs ≤ l.maxNestingDepth)
  | [], _, _ => ⟨fun h => ⟨h, ho⟩, fun h => h.1⟩
  | v :: rest, index, hsize => by
    rw [items, List.length_append, List.length_append] at hsize
    rw [AdmitsItems, ItemsAreNulFree, itemsDepth, admits_iff ho v (by omega),
      admitsItems_iff ho rest (index + 1) (by omega)]
    exact ⟨fun h => ⟨⟨h.1.1, h.2.1⟩, by omega⟩, fun h => ⟨⟨h.1.1, by omega⟩, h.1.2, by omega⟩⟩

end

/-- Under a size limit that is not negative, a document is taken if no name holds a NUL and neither the depth of nesting
nor the size is beyond the limits. -/
theorem admits_document_iff_of_nonneg {l : Limits} (hnonneg : 0 ≤ l.maxDocumentSize) (d : Document) :
    Admits l 0 (.document d) ↔
      IsNulFree (.document d) ∧ depth (.document d) ≤ l.maxNestingDepth ∧
        ((document d).length : Int) ≤ l.maxDocumentSize := by
  constructor
  · intro h
    have hsize : ((value (.document d)).length : Int) ≤ l.maxDocumentSize := by
      rcases h.2.2 with h | h
      · omega
      · exact h
    have hall := (admits_iff (Nat.zero_le _) _ hsize).1 h
    exact ⟨hall.1, by omega, hsize⟩
  · rintro ⟨hnul, hdepth, hsize⟩
    exact (admits_iff (Nat.zero_le _) (.document d) hsize).2 ⟨hnul, by omega⟩

/-- Limits that some document satisfies are such. -/
theorem admits_document_iff {l : Limits} (hfault : l.fault? = none) (d : Document) :
    Admits l 0 (.document d) ↔
      IsNulFree (.document d) ∧ depth (.document d) ≤ l.maxNestingDepth ∧
        ((document d).length : Int) ≤ l.maxDocumentSize :=
  admits_document_iff_of_nonneg (Int.le_trans (by decide) (Limits.five_le_of_fault?_eq_none hfault)) d

namespace Writer

/-- A writer between documents, over a sink that takes everything. -/
structure Idle (w : Writer) : Prop where
  held : w.isReleased = false
  state_eq : w.state = .initial ∨ w.state = .done
  pending_eq : w.pending = #[]
  pendingName_eq : w.pendingName = none
  frames_eq : w.frames = []
  refusal_eq : w.sink.refusal = none

theorem idle_ofSink {sink : Sink} (h : sink.refusal = none) (limits : Limits) : Idle (.ofSink sink limits) :=
  ⟨rfl, .inl rfl, rfl, rfl, rfl, h⟩

/-- The writer after whole documents have gone to the sink. -/
def sent (w : Writer) (bytes : List UInt8) : Writer :=
  { w with
    sink := { w.sink with received := w.sink.received.appendList bytes }
    state := if bytes = [] then w.state else .done
    flushed := w.flushed + bytes.length }

theorem sent_sent (w : Writer) (x y : List UInt8) : (w.sent x).sent y = w.sent (x ++ y) := by
  cases x with
  | nil => rfl
  | cons b x =>
      simp only [sent, appendList_appendList, List.cons_append, List.length_cons, List.length_append, reduceCtorEq,
        reduceIte, ite_self, Nat.add_assoc, Nat.add_comm, Nat.add_left_comm]

theorem Idle.sent {w : Writer} (h : w.Idle) (bytes : List UInt8) : (w.sent bytes).Idle := by
  refine ⟨h.held, ?_, h.pending_eq, h.pendingName_eq, h.frames_eq, h.refusal_eq⟩
  rw [Writer.sent]
  by_cases hb : bytes = []
  · simp only [hb, reduceIte]
    exact h.state_eq
  · simp only [hb, reduceIte, or_true]

open Write

/-- What follows a document at the top level: the sink gets its bytes. -/
theorem endValue_run_top {w : Writer} (hframes : w.frames = []) (h : w.sink.refusal = none) :
    endValue.run.run w = (.ok (),
      { w with
        sink := { w.sink with received := w.sink.received ++ w.pending }
        state := .done, flushed := w.flushed + w.pending.size, pending := #[] }) := by
  simp only [endValue, flush, run_bind, run_get, hframes, Sink.write, h, run_set, run_modify]

/-- Closing a document at the top level, which hands it to the sink. -/
theorem endDocument_decides_top {w : Writer} (elements : List UInt8) {frame : OpenFrame}
    (h : w.Holds #[] elements frame []) (hstate : w.state = .name) (hkind : frame.kind = .document)
    (hrefusal : w.sink.refusal = none) :
    Decides endDocument w (w.limits.Closes (container elements).length) ()
      { w with
        sink := { w.sink with received := w.sink.received.appendList (container elements) }
        state := .done, pending := #[], frames := []
        flushed := w.flushed + (container elements).length } := by
  refine endDocument_decides #[] elements h hstate hkind ((endValue_run_top rfl ?_).trans ?_)
  · exact hrefusal
  · have hreceived : w.sink.received ++ #[].appendList (container elements) =
        w.sink.received.appendList (container elements) := by
      apply Array.toList_inj.1
      simp
    have hflushed : (#[].appendList (container elements)).size = (container elements).length := by simp
    rw [hreceived, hflushed]

/-- A document is written if the writer admits it, and its layout is what the sink gets. -/
theorem writeDocument_decides {w : Writer} (h : w.Idle) (d : Document) :
    Decides (writeDocument d) w (Admits w.limits 0 (.document d)) () (w.sent (document d)) := by
  have hstart := startDocument_decides .document h.held (.inl ⟨h.state_eq, rfl⟩)
  rw [h.frames_eq, h.pending_eq] at hstart
  refine hstart.bind fun _ => ?_
  refine .bind (writeFields_decides d.entries ⟨?_, rfl, h.pendingName_eq, rfl⟩ nofun) fun _ => ?_
  · exact h.held
  refine .of_eq (endDocument_decides_top (elements d.entries) ⟨h.held, rfl, ?_, rfl⟩ rfl rfl h.refusal_eq) ?_
  · simp only [append, h.pending_eq, appendList_appendList]
  · have hbytes : document d ≠ [] := List.ne_nil_of_length_pos (by rw [document, length_container]; omega)
    simp only [sent, if_neg hbytes, ← h.pending_eq, ← h.frames_eq]
    rfl

/-- Documents are written if the writer admits each, and their layouts back to back are what the sink gets. -/
theorem writeDocuments_decides {w : Writer} (h : w.Idle) (ds : List Document) :
    Decides (writeDocuments ds) w (∀ d ∈ ds, Admits w.limits 0 (.document d)) () (w.sent (ds.flatMap document)) := by
  induction ds generalizing w with
  | nil => exact (Decides.of_ok rfl).congr (by simp)
  | cons d rest ih =>
      have hrest := ih (h.sent (document d))
      rw [sent_sent] at hrest
      refine ((writeDocument_decides h d).bind fun _ => hrest).congr ?_
      simp [sent]

/-- Over a sink that takes everything, a document is written exactly if no name and no part of a regular expression
in it holds a NUL, it is not nested too deep and its layout is not too large; and the sink then has its layout. -/
theorem writeDocument_iff_layout (d : Document) (size : Int32) (nesting : Nat) (sink : Sink)
    (hlimits : (Limits.ofWord size nesting).fault? = none) (hsink : sink.refusal = none) :
    ((∃ w, (writeDocument d).run.run (ofSink sink (.ofWord size nesting)) = (.ok (), w)) ↔
        IsNulFree (.document d) ∧ depth (.document d) ≤ nesting ∧ ((document d).length : Int) ≤ size.toInt) ∧
      ∀ w, (writeDocument d).run.run (ofSink sink (.ofWord size nesting)) = (.ok (), w) →
        w.sink.received.toList = sink.received.toList ++ document d := by
  have hwrite := writeDocument_decides (idle_ofSink hsink (.ofWord size nesting)) d
  constructor
  · refine Iff.trans ?_ (hwrite.ok_iff.trans (admits_document_iff hlimits d))
    exact ⟨fun ⟨w, hw⟩ => ⟨(), w, hw⟩, fun ⟨_, w, hw⟩ => ⟨w, hw⟩⟩
  · intro w hw
    have hp := hwrite.ok_iff.1 ⟨(), w, hw⟩
    rw [hwrite.run_eq hp] at hw
    cases hw
    simp only [sent, ofSink, Array.appendList_eq_append, Array.toList_appendList]

/-- Code with a scope in an array, at the limits of its forty-six bytes and four open containers. -/
theorem writeDocument_iff_layout_scopedCode :
    let d : Document := ⟨[("a", .array [.regularExpression "x" "i", .scopedCode "f" ⟨[("é", .int32 (-1))]⟩])]⟩
    (Limits.ofWord 46 4).fault? = none ∧ (default : Sink).refusal = none ∧
      ∃ w, (writeDocument d).run.run (ofSink default (.ofWord 46 4)) = (.ok (), w) ∧
        w.sink.received.toList = document d := by
  intro d
  obtain ⟨hiff, hlayout⟩ := writeDocument_iff_layout d 46 4 default (by decide) rfl
  have hnul : IsNulFree (.document d) := by simp [d, IsNulFree, AreNulFree, ItemsAreNulFree]
  have hsize : (document d).length = 46 := by decide
  obtain ⟨w, hw⟩ := hiff.2 ⟨hnul, by decide, by rw [hsize]; decide⟩
  exact ⟨by decide, rfl, w, hw, hlayout w hw⟩

end Writer

end Aggregation.Wire
