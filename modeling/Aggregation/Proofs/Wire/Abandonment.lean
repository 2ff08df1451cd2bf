import Aggregation.Proofs.Wire.Calls
import Aggregation.Proofs.Wire.Streams

/-! Documents that are given up. Over a sink that takes everything, whatever fails while a document is put together
fails before the sink has any of it. A stream that stops at such a document has the documents before it, and nothing
else. -/

namespace Aggregation.Wire

open Stepping Layout Write

variable {l : Limits}

namespace Writer

/-- If a step fails, the sink has what it had. -/
def Spares {α : Type} (x : Write α) (w : Writer) : Prop := ∀ e t, x.run.run w = (.error e, t) → t.sink = w.sink

section

variable {α β : Type} {x : Write α} {f : α → Write β} {w s t : Writer} {p : Prop} {a : α}

theorem spares_pure (a : α) : Spares (pure a : Write α) w := fun _ _ hrun => by cases hrun

/-- Two steps in turn, of which the first leaves the sink what it had also when it succeeds. -/
theorem Spares.bind (hx : Spares x w) (hd : Decides x w p a s) (hs : s.sink = w.sink) (hf : Spares (f a) s) :
    Spares (x >>= f) w := by
  intro e t hrun
  rcases hfirst : x.run.run w with ⟨e' | a', s'⟩
  · rw [run_bind_error hfirst] at hrun
    cases hrun
    exact hx e t hfirst
  · obtain ⟨-, rfl, rfl⟩ := hd.of_run hfirst
    rw [run_bind_ok hfirst] at hrun
    exact (hf e t hrun).trans hs

/-! ## Calls -/

theorem Begins.sink_eq {type : ElementType} (h : w.Begins type t) : t.sink = w.sink := by
  obtain ⟨name, s, hnamed, rfl⟩ := h.named
  suffices hs : s.sink = w.sink from hs
  rw [named?] at hnamed
  split at hnamed
  · cases hnamed
  · split at hnamed
    · cases hnamed
      rfl
    · obtain ⟨given, -, hgiven⟩ := Option.map_eq_some_iff.1 hnamed
      cases hgiven
      rfl

theorem Leaves.sink_eq {c : Call} {e : WireError} (h : w.Leaves c e t) (hrefusal : w.sink.refusal = none) :
    t.sink = w.sink := by
  cases h with
  | same => rfl
  | tornPattern hbegins => exact hbegins.sink_eq
  | tornOptions hbegins => exact hbegins.sink_eq
  | tooDeep hbegins => exact hbegins.sink_eq
  | tooLarge hclosing =>
      obtain ⟨frames, pending, -, rfl⟩ := hclosing
      rfl
  | untaken _ _ hrefuses => exact absurd hrefusal hrefuses

/-- A writer at any time, over a sink that takes everything. -/
structure Unrefused (w : Writer) : Prop where
  coherent : w.Coherent
  refusal_eq : w.sink.refusal = none

theorem Unrefused.spares (h : w.Unrefused) (c : Call) : Spares c.write w :=
  fun _ _ hrun => (h.coherent.leaves_of_error hrun).sink_eq h.refusal_eq

/-- A call that leaves the sink what it had, and what follows it. -/
theorem Unrefused.spares_bind (h : w.Unrefused) {c : Call} {f : Unit → Write β} (hd : Decides c.write w p () s)
    (hs : s.sink = w.sink) (hf : s.Unrefused → Spares (f ()) s) : Spares (c.write >>= f) w := by
  rcases hd with ⟨hp, hrun⟩ | ⟨-, e, t, hrun⟩
  · have hcoherent := h.coherent.call c
    rw [hrun] at hcoherent
    exact (h.spares c).bind (.inl ⟨hp, hrun⟩) hs (hf ⟨hcoherent, hs ▸ h.refusal_eq⟩)
  · intro e' t' hall
    rw [run_bind_error hrun] at hall
    cases hall
    exact h.spares c e t hrun

theorem Unrefused.append (h : w.Unrefused) (bytes : List UInt8) : (w.append bytes).Unrefused :=
  ⟨⟨h.coherent.nested, h.coherent.scope⟩, h.refusal_eq⟩

/-- The index of the next item is of no matter. -/
theorem Unrefused.counted (h : w.Unrefused) {frame : OpenFrame} {frames : List OpenFrame}
    (hframes : w.frames = frame :: frames) (index : Nat) :
    Unrefused { w with frames := { frame with index } :: frames } := by
  obtain ⟨⟨hnested, hscope⟩, hrefusal⟩ := h
  rw [hframes] at hnested hscope
  exact ⟨⟨hnested, hscope⟩, hrefusal⟩

theorem Ready.nested {name : String} {frame : OpenFrame} {frames : List OpenFrame} (h : w.Ready name frame frames)
    (hnested : Nested w.frames) : Nested (frame :: frames) := by
  rcases h.name_eq with ⟨before, hframes, -, -, -, rfl⟩ | ⟨hframes, -⟩
  · rw [hframes] at hnested
    exact hnested
  · rwa [hframes] at hnested

theorem Unrefused.wrote (h : w.Unrefused) {name : String} {frame : OpenFrame} {frames : List OpenFrame}
    (hready : w.Ready name frame frames) (bytes : List UInt8) : (w.wrote frame frames bytes).Unrefused := by
  refine ⟨coherent_of_ne (hready.nested h.coherent.nested) ?_, h.refusal_eq⟩
  show afterValue frame ≠ .scopeDocument
  rw [afterValue]
  split <;> nofun

end

/-! ## Values -/

mutual

theorem spares_writeValue {w : Writer} {name : String} {frame : OpenFrame} {frames : List OpenFrame}
    (h : w.Unrefused) (hready : w.Ready name frame frames) : ∀ v : Value, Spares (writeValue v) w
  | .document ⟨fields⟩ => by
    refine h.spares_bind (c := .startDocument) (startDocument_decides_value hready) rfl fun hs => ?_
    have hfields := spares_writeFields fields hs ⟨hready.held, rfl, rfl, rfl⟩ nofun
    refine hfields.bind (writeFields_decides fields ⟨hready.held, rfl, rfl, rfl⟩ nofun) rfl ?_
    exact (hs.append _).spares .endDocument
  | .array xs => by
    refine h.spares_bind (c := .startArray) (startArray_decides hready) rfl fun hs => ?_
    have hitems := spares_writeItems xs hs ⟨hready.held, rfl, rfl, rfl⟩ rfl
    refine hitems.bind (writeItems_decides xs ⟨hready.held, rfl, rfl, rfl⟩ rfl) rfl ?_
    exact ((hs.append _).counted rfl _).spares .endArray
  | .scopedCode code ⟨fields⟩ => by
    refine h.spares_bind (c := .writeScopedCode code) (writeScopedCode_decides hready code) rfl fun hs => ?_
    refine hs.spares_bind (c := .startDocument)
      (startDocument_decides .scopeDocument hready.held (.inr ⟨rfl, rfl⟩)) rfl fun hs => ?_
    have hfields := spares_writeFields fields hs ⟨hready.held, rfl, rfl, rfl⟩ nofun
    refine hfields.bind (writeFields_decides fields ⟨hready.held, rfl, rfl, rfl⟩ nofun) rfl ?_
    exact (hs.append _).spares .endDocument
  | .double x => h.spares (.writeDouble x)
  | .string s => h.spares (.writeString s)
  | .binary subtype bytes => h.spares (.writeBinary subtype bytes)
  | .undefined => h.spares .writeUndefined
  | .objectId id => h.spares (.writeObjectId id)
  | .boolean b => h.spares (.writeBoolean b)
  | .dateTime millis => h.spares (.writeDateTime millis)
  | .null => h.spares .writeNull
  | .regularExpression pattern options => h.spares (.writeRegularExpression pattern options)
  | .dbPointer collection id => h.spares (.writeDbPointer collection id)
  | .javaScript code => h.spares (.writeJavaScript code)
  | .symbol name => h.spares (.writeSymbol name)
  | .int32 n => h.spares (.writeInt32 n)
  | .timestamp time increment => h.spares (.writeTimestamp time increment)
  | .int64 n => h.spares (.writeInt64 n)
  | .decimal128 d => h.spares (.writeDecimal128 d)
  | .minKey => h.spares .writeMinKey
  | .maxKey => h.spares .writeMaxKey

theorem spares_writeFields (fields : List (String × Value)) {w : Writer} {frame : OpenFrame} {frames : List OpenFrame}
    (h : w.Unrefused) (hbetween : w.Between frame frames) (hkind : frame.kind ≠ .array) :
    Spares (writeFields fields) w :=
  match fields with
  | [] => spares_pure ()
  | (name, v) :: rest => by
    have hstate : w.state = .name := hbetween.state_eq.trans (if_neg hkind)
    have hready : Ready { w with pendingName := some name, state := .value } name frame frames :=
      ⟨hbetween.held, rfl, .inr ⟨hbetween.frames_eq, hkind, rfl⟩⟩
    refine h.spares_bind (c := .writeName name) (writeName_decides hbetween.held hstate name) rfl fun hs => ?_
    refine (spares_writeValue hs hready v).bind (writeValue_decides hready v) rfl ?_
    exact spares_writeFields rest (hs.wrote hready _) ⟨hbetween.held, rfl, rfl, rfl⟩ hkind

theorem spares_writeItems (xs : List Value) {w : Writer} {frame : OpenFrame} {frames : List OpenFrame}
    (h : w.Unrefused) (hbetween : w.Between frame frames) (hkind : frame.kind = .array) : Spares (writeItems xs) w :=
  match xs with
  | [] => spares_pure ()
  | v :: rest => by
    have hstate : w.state = .value := hbetween.state_eq.trans (if_pos hkind)
    have hready : w.Ready (toString frame.index) { frame with index := frame.index + 1 } frames :=
      ⟨hbetween.held, hstate, .inl ⟨frame, hbetween.frames_eq, hkind, hbetween.pendingName_eq, rfl, rfl⟩⟩
    refine (spares_writeValue h hready v).bind (writeValue_decides hready v) rfl ?_
    exact spares_writeItems rest (h.wrote hready _) ⟨hbetween.held, rfl, rfl, rfl⟩ hkind

end

/-! ## Documents -/

section

variable {w t : Writer} {e : WireError}

theorem Idle.unrefused (h : w.Idle) : w.Unrefused := by
  refine ⟨coherent_of_ne ?_ ?_, h.refusal_eq⟩
  · rw [h.frames_eq]
    trivial
  · rcases h.state_eq with hstate | hstate <;> rw [hstate] <;> nofun

/-- A document of which the writer does not take all is not handed over. -/
theorem spares_writeDocument (h : w.Idle) (d : Document) : Spares (writeDocument d) w := by
  have hstart := startDocument_decides .document h.held (.inl ⟨h.state_eq, rfl⟩)
  rw [h.frames_eq] at hstart
  refine h.unrefused.spares_bind (c := .startDocument) hstart rfl fun hs => ?_
  have hfields := spares_writeFields d.entries hs ⟨h.held, rfl, h.pendingName_eq, rfl⟩ nofun
  refine hfields.bind (writeFields_decides d.entries ⟨h.held, rfl, h.pendingName_eq, rfl⟩ nofun) rfl ?_
  exact (hs.append _).spares .endDocument

/-- Documents are written up to the first that the writer does not take. -/
theorem exists_of_writeDocuments_error (h : w.Idle) {ds : List Document}
    (hrun : (writeDocuments ds).run.run w = (.error e, t)) :
    ∃ before d later, ds = before ++ d :: later ∧ (∀ d' ∈ before, Admits w.limits 0 (.document d')) ∧
      ¬Admits w.limits 0 (.document d) ∧ t.sink = (w.sent (before.flatMap document)).sink := by
  induction ds generalizing w with
  | nil => cases hrun
  | cons d rest ih =>
      rw [writeDocuments] at hrun
      by_cases hd : Admits w.limits 0 (.document d)
      · rw [run_bind_ok ((writeDocument_decides h d).run_eq hd)] at hrun
        obtain ⟨before, d', later, rfl, hbefore, hd', hsink⟩ := ih (h.sent (document d)) hrun
        rw [sent_sent] at hsink
        exact ⟨d :: before, d', later, rfl, List.forall_mem_cons.2 ⟨hd, hbefore⟩, hd', hsink⟩
      · obtain ⟨hd', -⟩ | ⟨-, e', t', hrun'⟩ := writeDocument_decides h d
        · exact absurd hd' hd
        · rw [run_bind_error hrun'] at hrun
          cases hrun
          refine ⟨[], d, rest, rfl, List.forall_mem_nil _, hd, ?_⟩
          rw [spares_writeDocument h d e t hrun', List.flatMap_nil, sent]
          simp [Array.appendList_eq_append]

end

end Writer

/-- One document is taken as a stream exactly if a writer takes it. -/
theorem exists_encodeStream_single_iff (d : Document) :
    (∃ n, (encodeStream [d] {} l).result = .ok n) ↔ Admits l 0 (.document d) := by
  constructor
  · rintro ⟨n, hn⟩
    exact admits_of_encodeStream rfl hn d List.mem_cons_self
  · intro hd
    exact ⟨_, (encodeStream_of_admits rfl fun d' hd' => List.mem_singleton.1 hd' ▸ hd).1⟩

/-- A stream of documents that fails has stopped at the first document that is not taken by itself. The sink has got
the documents before it as they are written one by one, and these are read back from what it has got. -/
theorem encodeStream_leaves_taken (size : Int32) (nesting : Nat) (ds : List Document) (sink : Sink) (e : WireError)
    (hlimits : (Limits.ofWord size nesting).fault? = none) (hdistinct : ∀ d ∈ ds, HasDistinctNames (.document d))
    (hsink : sink.refusal = none) (hfails : (encodeStream ds sink (.ofWord size nesting)).result = .error e) :
    ∃ before d later, ds = before ++ d :: later ∧
      (∀ d' ∈ before, ∃ n, (encodeStream [d'] {} (.ofWord size nesting)).result = .ok n) ∧
      (¬∃ n, (encodeStream [d] {} (.ofWord size nesting)).result = .ok n) ∧
      ∃ bytes, bytes = before.flatMap (fun d' => (encodeStream [d'] {} (.ofWord size nesting)).bytes) ∧
        (encodeStream ds sink (.ofWord size nesting)).bytes = sink.received.toList ++ bytes ∧
        ∀ source : Source, source.content = bytes → source.ending = .ends →
          (decodeStream source (.ofWord size nesting)).result = .ok before := by
  have hidle := Writer.idle_ofSink hsink (.ofWord size nesting)
  rcases hrun : (Writer.writeDocuments ds).run.run (.ofSink sink (.ofWord size nesting)) with ⟨e' | a, t⟩
  · obtain ⟨before, d, later, rfl, hbefore, hd, hsent⟩ := Writer.exists_of_writeDocuments_error hidle hrun
    have hsingle (d' : Document) (hd' : d' ∈ before) :
        (encodeStream [d'] {} (.ofWord size nesting)).bytes = document d' := by
      have hall : ∀ d'' ∈ [d'], Admits (.ofWord size nesting) 0 (.document d'') := fun d'' h =>
        List.mem_singleton.1 h ▸ hbefore d' hd'
      rw [(encodeStream_of_admits rfl hall).2]
      simp
    have hbytes : before.flatMap (fun d' => (encodeStream [d'] {} (.ofWord size nesting)).bytes) =
        before.flatMap document := List.flatMap_congr hsingle
    refine ⟨before, d, later, rfl, fun d' hd' => (exists_encodeStream_single_iff d').2 (hbefore d' hd'),
      (exists_encodeStream_single_iff d).not.2 hd, before.flatMap document, hbytes.symm, ?_,
      fun source hcontent hending => ?_⟩
    · rw [encodeStream, hrun]
      simp only [Writer.close, hsent, Writer.sent, Writer.ofSink, Array.appendList_eq_append, Array.toList_appendList]
    · rw [decodeStream_eq_ok_iff (Limits.ofWord_lt size nesting) hending, hcontent]
      exact areDocuments_flatMap_document hlimits before hbefore fun d' hd' =>
        hdistinct d' (List.mem_append_left _ hd')
  · rw [encodeStream, hrun] at hfails
    cases hfails

/-- The second of three documents has too deep a document in an array, after an element that is put down. -/
theorem encodeStream_leaves_taken_tooDeep :
    let ds : List Document :=
      [⟨[("a", .int32 7)]⟩, ⟨[("b", .null), ("c", .array [.document ⟨[]⟩])]⟩, ⟨[("d", .minKey)]⟩]
    let l : Limits := .ofWord 64 2
    l.fault? = none ∧ (∀ d ∈ ds, HasDistinctNames (.document d)) ∧ (default : Sink).refusal = none ∧
      (∃ e, (encodeStream ds default l).result = .error e) ∧ (encodeStream ds default l).bytes.length = 12 ∧
        ∃ before d later, ds = before ++ d :: later ∧ before ≠ [] ∧
          (decodeStream (.ofBytes (encodeStream ds default l).bytes 1 none true) l).result = .ok before := by
  intro ds l
  have hlimits : l.fault? = none := by decide
  have hdistinct : ∀ d ∈ ds, HasDistinctNames (.document d) := by
    simp [ds, HasDistinctNames, HaveDistinctNames, ItemsHaveDistinctNames]
  have hlength : (encodeStream ds default l).bytes.length = 12 := by decide +kernel
  have hfails : (encodeStream ds default l).result.isOk = false := by decide +kernel
  rcases hresult : (encodeStream ds default l).result with e | n
  · obtain ⟨before, d, later, hds, -, -, bytes, hbytes, hsent, hdecode⟩ :=
      encodeStream_leaves_taken 64 2 ds default e hlimits hdistinct rfl hresult
    obtain ⟨hcontent, hending⟩ := Source.content_ofBytes (encodeStream ds default l).bytes Nat.one_pos true
    refine ⟨hlimits, hdistinct, rfl, ⟨e, rfl⟩, hlength, before, d, later, hds, ?_,
      hdecode _ (hcontent.trans hsent) hending⟩
    rintro rfl
    rw [hsent, hbytes] at hlength
    cases hlength
  · rw [hresult] at hfails
    cases hfails

end Aggregation.Wire
