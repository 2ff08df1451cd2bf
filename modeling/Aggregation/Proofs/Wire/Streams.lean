import Aggregation.Proofs.Wire.Decoding
import Aggregation.Proofs.Wire.Encoding
import Aggregation.Value.Equality
import Aggregation.Wire.DocumentStream

/-! Streams of documents. Bytes are read as documents exactly if they are forms of these documents back to back, in
whatever pieces the source hands them out; and the layouts of documents that could be written are such bytes. -/

namespace Aggregation.Wire

open Stepping Layout Read Reader ReplayBuffer

variable {l : Limits}

/-- Whether bytes are forms of documents back to back. -/
def AreDocuments (l : Limits) : List Document → List UInt8 → Prop
  | [], bytes => bytes = []
  | d :: rest, bytes => ∃ first later, IsDocumentForm l d first ∧ AreDocuments l rest later ∧ bytes = first ++ later

namespace Reader

/-- A reader between documents. -/
def Idle (r : Reader) (l : Limits) : Prop := ∃ state, (state = .initial ∨ state = .done) ∧ r.At l [] state

theorem idle_ofSource {source : Source} (h : source.ending = .ends) (l : Limits) (serial : Nat) :
    Idle (.ofSource source l serial) l :=
  ⟨.initial, .inl rfl, ⟨⟨source, rfl, h⟩, Nat.le_refl _⟩, rfl, rfl, rfl⟩

/-- At the top level a document is read in its form. -/
theorem readDocument_consumes {r : Reader} (hl : l.maxDocumentSize < 2147483648) (h : r.Idle l) (most : Nat) :
    Consumes Reader.input most readDocument r (fun d bytes => IsDocumentForm l d bytes) fun _ _ r' => r'.Idle l := by
  obtain ⟨state, hstate, hat⟩ := h
  have henter : r.MayEnter .document := .inl ⟨hat.state_eq ▸ hstate, rfl⟩
  have hdocument := readDocumentWithin_consumes r.steps (q := fun _ => True) hl hat henter
    fun _ _ _ hkind hat => (endDocument_consumes hat hkind).congr fun _ _ => by rw [and_true]
  refine .bind_ok (run_get r) rfl ?_
  refine ((hdocument.of_unread ?_).congr fun d bytes => and_iff_left trivial).mono ?_
  · rw [hat.live.length_unread, steps, supply]
    omega
  · exact fun _ _ _ _ _ hat' => ⟨.done, .inr rfl, hat'⟩

/-- Asking whether a document follows reads nothing. -/
theorem isAtEnd_run {r : Reader} (h : r.Idle l) :
    ∃ r', isAtEnd.run.run r = (.ok (decide (r.input.unread = [])), r') ∧ r.input.Advances [] r'.input ∧ r'.Idle l := by
  obtain ⟨state, hstate, hat⟩ := h
  obtain ⟨input, hrun, hadvances, -⟩ := Replay.fill_run hat.live 1
  have hopen : ensureOpen.run.run r = (.ok (), r) := by
    apply ensureOpen_run hat
    rcases hstate with rfl | rfl <;> decide
  have hinput : (onInput Replay.hasRemaining).run.run r
      = (.ok (decide (1 ≤ r.input.unread.length)), { r with input }) := by
    rw [onInput_run, Replay.hasRemaining, hrun]
  have hempty : (!decide (1 ≤ r.input.unread.length)) = decide (r.input.unread = []) := by
    cases r.input.unread with
    | nil => rfl
    | cons b rest => simp
  refine ⟨{ r with input }, ?_, hadvances, state, hstate, hadvances.live, hat.limits_eq, hat.frames_eq, hat.state_eq⟩
  have hs := hat.state_eq
  rcases hstate with rfl | rfl <;>
    simp only [isAtEnd, run_bind, hopen, run_get, hs, hinput, run_pure, hempty]

end Reader

/-- A document has a form of its own length. -/
theorem IsDocumentForm.ne_nil {d : Document} {bytes : List UInt8} (h : IsDocumentForm l d bytes) : bytes ≠ [] := by
  obtain ⟨_, _, body, _, rfl, _⟩ := h
  exact List.ne_nil_of_length_pos (by rw [length_container]; omega)

namespace DocumentStream

/-- A stream that has not ended. -/
structure Running (s : DocumentStream) (l : Limits) : Prop where
  idle : s.reader.Idle l
  error_eq : s.error = none
  isFinished_eq : s.isFinished = false

theorem next_of_nil {s : DocumentStream} (h : s.Running l) (hnil : s.reader.input.unread = []) :
    ∃ s', s.next = (none, s') ∧ s'.error = none := by
  obtain ⟨r, hrun, -⟩ := isAtEnd_run h.idle
  rw [decide_eq_true hnil] at hrun
  refine ⟨finish { s with reader := r } none, ?_, rfl⟩
  simp only [next, h.isFinished_eq, hrun]
  rfl

/-- Where bytes are left, they begin with a form of the next document, or the stream ends with an error. -/
theorem next_of_ne_nil (hl : l.maxDocumentSize < 2147483648) {s : DocumentStream} (h : s.Running l)
    (hne : s.reader.input.unread ≠ []) :
    (∃ d bytes s', s.next = (some d, s') ∧ IsDocumentForm l d bytes ∧
        s.reader.input.Advances bytes s'.reader.input ∧ s'.Running l) ∨
      (∃ s' e, s.next = (none, s') ∧ s'.error = some e) ∧
        ∀ d bytes rest, IsDocumentForm l d bytes → s.reader.input.unread ≠ bytes ++ rest := by
  obtain ⟨r, hrun, hadvances, hidle⟩ := isAtEnd_run h.idle
  rw [decide_eq_false hne] at hrun
  have hconsumes := readDocument_consumes hl hidle (r.input.unread.length + 1)
  have hunread : s.reader.input.unread = r.input.unread := hadvances.unread_eq
  rcases hread : readDocument.run.run r with ⟨e | d, r'⟩
  · refine .inr ⟨⟨finish { s with reader := r' } (some e), e, ?_, rfl⟩, fun d bytes rest hform heq => ?_⟩
    · simp only [next, h.isFinished_eq, hrun, hread]
      rfl
    · rw [hunread] at heq
      obtain ⟨t, ht, -⟩ := hconsumes.complete d bytes rest hform (by rw [heq, List.length_append]; omega) heq
      rw [hread] at ht
      cases ht
  · obtain ⟨bytes, hform, hadvances', hidle'⟩ := hconsumes.sound d r' hread
    refine .inl ⟨d, bytes, { s with reader := r' }, ?_, hform, hadvances.trans hadvances', hidle', h.error_eq,
      h.isFinished_eq⟩
    simp only [next, h.isFinished_eq, hrun, hread]
    rfl

/-- A stream reads on to its end exactly if what is unread are documents back to back. -/
theorem take_iff (hl : l.maxDocumentSize < 2147483648) {s : DocumentStream} (h : s.Running l) {count : Nat}
    (hcount : s.reader.input.unread.length < count) (ds : List Document) :
    (s.take count).1 = ds ∧ (s.take count).2.error = none ↔ AreDocuments l ds s.reader.input.unread := by
  induction count generalizing s ds with
  | zero => exact absurd hcount (Nat.not_lt_zero _)
  | succ count ih =>
      by_cases hnil : s.reader.input.unread = []
      · obtain ⟨s', hnext, herror⟩ := next_of_nil h hnil
        rw [take, hnext, hnil]
        constructor
        · rintro ⟨rfl, -⟩
          rfl
        · cases ds with
          | nil => exact fun _ => ⟨rfl, herror⟩
          | cons d rest =>
              rintro ⟨first, later, hform, -, heq⟩
              exact absurd (List.append_eq_nil_iff.1 heq.symm).1 hform.ne_nil
      · rcases next_of_ne_nil hl h hnil with ⟨d, bytes, s', hnext, hform, hadvances, hrunning⟩ |
          ⟨⟨s', e, hnext, herror⟩, hnone⟩
        · have hlength : s'.reader.input.unread.length < count := by
            have hbytes := List.length_pos_iff.2 hform.ne_nil
            rw [hadvances.unread_eq, List.length_append] at hcount
            omega
          rw [take, hnext]
          constructor
          · rintro ⟨rfl, herror⟩
            exact ⟨bytes, _, hform, (ih hrunning hlength _).1 ⟨rfl, herror⟩, hadvances.unread_eq⟩
          · cases ds with
            | nil => exact fun heq => absurd heq hnil
            | cons d' rest =>
                rintro ⟨first, later, hform', hlater, heq⟩
                have hconsumes := readDocument_consumes hl h.idle (s.reader.input.unread.length + 1)
                obtain ⟨rfl, rfl⟩ := hconsumes.unique hform hform' (Nat.lt_succ_self _) hadvances.unread_eq heq
                have hrest : s'.reader.input.unread = later :=
                  List.append_cancel_left (hadvances.unread_eq.symm.trans heq)
                obtain ⟨hds, herror⟩ := (ih hrunning hlength rest).2 (hrest ▸ hlater)
                exact ⟨congrArg _ hds, herror⟩
        · rw [take, hnext]
          constructor
          · rintro ⟨-, hnone'⟩
            rw [herror] at hnone'
            cases hnone'
          · cases ds with
            | nil => exact fun heq => absurd heq hnil
            | cons d rest =>
                rintro ⟨first, later, hform, -, heq⟩
                exact absurd heq (hnone d first later hform)

end DocumentStream

theorem Source.brought_pieces (most : Nat) (interrupts : Bool) {fuel : Nat} {bytes : List UInt8}
    (hfuel : bytes.length ≤ fuel) : Source.brought (Source.pieces most interrupts fuel bytes) = bytes := by
  induction fuel generalizing bytes with
  | zero =>
      rw [List.eq_nil_of_length_eq_zero (Nat.le_zero.1 hfuel)]
      rfl
  | succ fuel ih =>
      cases bytes with
      | nil => rfl
      | cons b rest =>
          have hrest : (rest.drop (most - 1)).length ≤ fuel := by
            rw [List.length_cons] at hfuel
            rw [List.length_drop]
            omega
          have hlater := ih hrest
          rw [Source.brought] at hlater
          cases interrupts <;>
            simp only [Source.pieces, Source.brought, List.flatMap_cons, Source.deliveryBytes, hlater, List.nil_append,
              List.cons_append, List.take_append_drop, reduceIte, Bool.false_eq_true]

/-- A source over bytes that does not fail hands them out, in pieces of any size. -/
theorem Source.content_ofBytes (bytes : List UInt8) {most : Nat} (hmost : 0 < most) (interrupts : Bool) :
    (Source.ofBytes bytes most none interrupts).content = bytes ∧
      (Source.ofBytes bytes most none interrupts).ending = .ends := by
  have hpositive : 0 < min most Source.readSize := Nat.lt_min.2 ⟨hmost, by decide⟩
  rw [Source.ofBytes]
  simp only [Nat.ne_of_gt hpositive, reduceIte, and_true]
  exact Source.brought_pieces _ interrupts (Nat.le_refl _)

/-- A source that ends is read as documents exactly if its bytes are forms of them back to back. -/
theorem decodeStream_eq_ok_iff (hl : l.maxDocumentSize < 2147483648) {source : Source} (h : source.ending = .ends)
    (ds : List Document) : (decodeStream source l).result = .ok ds ↔ AreDocuments l ds source.content := by
  have hrunning : (DocumentStream.ofSource source l).Running l := ⟨idle_ofSource h l 0, rfl, rfl⟩
  obtain ⟨_, _, hat⟩ := hrunning.idle
  have hcount : (DocumentStream.ofSource source l).reader.input.unread.length <
      (DocumentStream.ofSource source l).reader.supply + 1 := by
    rw [hat.live.length_unread]
    exact Nat.lt_succ_self _
  refine Iff.trans ?_ (DocumentStream.take_iff hl hrunning hcount ds)
  rw [decodeStream, DocumentStream.collect]
  rcases (DocumentStream.ofSource source l).take ((DocumentStream.ofSource source l).reader.supply + 1)
    with ⟨documents, s⟩
  cases herror : s.error with
  | none => simp only [herror, and_true, Except.ok.injEq]
  | some e => simp only [herror, reduceCtorEq, and_false]

/-- Reading one document alone reads a form of it that is all there is. -/
theorem readAlone_iff (hl : l.maxDocumentSize < 2147483648) {r : Reader} (h : r.Idle l) (d : Document) :
    (readAlone.run.run r).1 = .ok d ↔ IsDocumentForm l d r.input.unread := by
  have hconsumes := readDocument_consumes hl h (r.input.unread.length + 1)
  constructor
  · intro hd
    obtain ⟨d', r', hread, hrest⟩ := exists_of_run_bind (Prod.ext hd rfl : readAlone.run.run r = (.ok d, _))
    obtain ⟨bytes, hform, hadvances, hidle⟩ := hconsumes.sound d' r' hread
    obtain ⟨r'', hend, -⟩ := isAtEnd_run hidle
    rw [run_bind_ok (offset_run r'), run_bind_ok hend] at hrest
    by_cases hnil : r'.input.unread = []
    · rw [decide_eq_true hnil] at hrest
      cases hrest
      rwa [hadvances.unread_eq, hnil, List.append_nil]
    · rw [decide_eq_false hnil] at hrest
      cases hrest
  · intro hform
    obtain ⟨r', hread, hadvances, hidle⟩ :=
      hconsumes.complete d _ [] hform (Nat.lt_succ_self _) (List.append_nil _).symm
    obtain ⟨r'', hend, -⟩ := isAtEnd_run hidle
    have hnil : r'.input.unread = [] :=
      List.append_cancel_left (hadvances.unread_eq.symm.trans (List.append_nil _).symm)
    rw [decide_eq_true hnil] at hend
    rw [readAlone, run_bind_ok hread, run_bind_ok (offset_run r'), run_bind_ok hend]
    rfl

/-- Bytes are read as one document exactly if they are a form of it. -/
theorem decode_eq_ok_iff (bytes : List UInt8) (d : Document) :
    (decode bytes).result = .ok d ↔ IsDocumentForm {} d bytes := by
  obtain ⟨hcontent, hending⟩ := Source.content_ofBytes bytes (by decide : 0 < Source.readSize) false
  have hunread : (Reader.ofSource (.ofBytes bytes)).input.unread = bytes := hcontent
  have halone := readAlone_iff (by decide) (idle_ofSource hending {} 0) d
  rw [hunread] at halone
  exact halone

/-- The layouts of documents that a writer takes are documents back to back. -/
theorem areDocuments_flatMap_document (hfault : l.fault? = none) : ∀ ds : List Document,
    (∀ d ∈ ds, Admits l 0 (.document d)) → (∀ d ∈ ds, HasDistinctNames (.document d)) →
      AreDocuments l ds (ds.flatMap document)
  | [], _, _ => rfl
  | d :: rest, hadmits, hdistinct => by
    have hd := hadmits d List.mem_cons_self
    have hform := isForm_value (.document d) hd (hdistinct d List.mem_cons_self)
      ((admits_document_iff hfault d).1 hd).2.2
    have hrest := areDocuments_flatMap_document hfault rest (fun d hd => hadmits d (List.mem_cons_of_mem _ hd))
      fun d hd => hdistinct d (List.mem_cons_of_mem _ hd)
    exact ⟨_, _, hform, hrest, rfl⟩

/-- A stream of documents that a writer takes is their layouts back to back. -/
theorem encodeStream_of_admits {sink : Sink} {ds : List Document} (hsink : sink.refusal = none)
    (h : ∀ d ∈ ds, Admits l 0 (.document d)) :
    (encodeStream ds sink l).result = .ok (ds.flatMap document).length ∧
      (encodeStream ds sink l).bytes = sink.received.toList ++ ds.flatMap document := by
  rw [encodeStream, (Writer.writeDocuments_decides (Writer.idle_ofSink hsink l) ds).run_eq h]
  constructor
  · simp only [Except.map, Writer.position, Writer.sent, Writer.ofSink, Array.size_empty, Nat.zero_add, Nat.add_zero]
  · simp only [Writer.close, Writer.sent, Writer.ofSink, Array.appendList_eq_append, Array.toList_appendList]

theorem admits_of_encodeStream {sink : Sink} {ds : List Document} {n : Nat} (hsink : sink.refusal = none)
    (h : (encodeStream ds sink l).result = .ok n) : ∀ d ∈ ds, Admits l 0 (.document d) := by
  rw [encodeStream] at h
  rcases hrun : (Writer.writeDocuments ds).run.run (.ofSink sink l) with ⟨e | a, w⟩
  · rw [hrun] at h
    cases h
  · exact (Writer.writeDocuments_decides (Writer.idle_ofSink hsink l) ds).ok_iff.1 ⟨a, w, hrun⟩

/-- What is written as a stream is read back as the same documents, from any source that hands it out. -/
theorem decodeStream_encodeStream (size : Int32) (nesting : Nat) (ds : List Document) (sink : Sink) (n : Nat)
    (hlimits : (Limits.ofWord size nesting).fault? = none) (hdistinct : ∀ d ∈ ds, HasDistinctNames (.document d))
    (hsink : sink.refusal = none) (hencode : (encodeStream ds sink (.ofWord size nesting)).result = .ok n) :
    ∃ bytes, (encodeStream ds sink (.ofWord size nesting)).bytes = sink.received.toList ++ bytes ∧ n = bytes.length ∧
      ∀ source : Source, source.content = bytes → source.ending = .ends →
        ∃ ds', (decodeStream source (.ofWord size nesting)).result = .ok ds' ∧ ds'.length = ds.length ∧
          ∀ k (h : k < ds.length) (h' : k < ds'.length), Record.same ds'[k] ds[k] = true := by
  have hadmits := admits_of_encodeStream hsink hencode
  obtain ⟨hresult, hbytes⟩ := encodeStream_of_admits hsink hadmits
  have hn : n = (ds.flatMap document).length := Except.ok.inj (hencode.symm.trans hresult)
  refine ⟨ds.flatMap document, hbytes, hn, fun source hcontent hending => ⟨ds, ?_, rfl, fun k _ _ => ?_⟩⟩
  · rw [decodeStream_eq_ok_iff (Limits.ofWord_lt size nesting) hending, hcontent]
    exact areDocuments_flatMap_document hlimits ds hadmits hdistinct
  · exact Record.same_iff_eq.2 rfl

/-- A stream of two documents with a NaN, a negative zero, a legacy binary and code with a scope, handed out byte by
byte with interruptions. -/
theorem decodeStream_encodeStream_two :
    let ds : List Document :=
      [⟨[("a", .double ⟨0x7FF8000000000001⟩), ("", .array [.double ⟨0x8000000000000000⟩, .binary 2 [7]])]⟩,
        ⟨[("é", .scopedCode "f" ⟨[("z", .document ⟨[]⟩), ("b", .minKey)]⟩)]⟩]
    let l : Limits := .ofWord 47 4
    l.fault? = none ∧ (∀ d ∈ ds, HasDistinctNames (.document d)) ∧ (default : Sink).refusal = none ∧
      (encodeStream ds default l).result = .ok 82 ∧
        ∃ bytes ds', (encodeStream ds default l).bytes = bytes ∧ bytes.length = 82 ∧
          (decodeStream (.ofBytes bytes 1 none true) l).result = .ok ds' ∧ ds'.length = 2 := by
  intro ds l
  have hlimits : l.fault? = none := by decide
  have hdistinct : ∀ d ∈ ds, HasDistinctNames (.document d) := by
    simp [ds, HasDistinctNames, HaveDistinctNames, ItemsHaveDistinctNames]
  have hadmits : ∀ d ∈ ds, Admits l 0 (.document d) := by
    intro d hd
    rw [admits_document_iff hlimits]
    simp only [ds, List.mem_cons, List.not_mem_nil, or_false] at hd
    rcases hd with rfl | rfl
    · exact ⟨by simp [IsNulFree, AreNulFree, ItemsAreNulFree], by decide, by decide⟩
    · exact ⟨by simp [IsNulFree, AreNulFree], by decide, by decide⟩
  have hencode : (encodeStream ds default l).result = .ok 82 := (encodeStream_of_admits rfl hadmits).1
  obtain ⟨bytes, hbytes, hn, hdecode⟩ := decodeStream_encodeStream 47 4 ds default 82 hlimits hdistinct rfl hencode
  obtain ⟨hcontent, hending⟩ := Source.content_ofBytes bytes Nat.one_pos true
  obtain ⟨ds', hds', hlength, -⟩ := hdecode _ hcontent hending
  exact ⟨hlimits, hdistinct, rfl, hencode, bytes, ds', hbytes, hn.symm, hds', hlength⟩

/-- Bytes are read as one document exactly if they are a form of it, and as a stream of one document exactly then. -/
theorem decode_same_iff (bytes : List UInt8) (d : Document) :
    ((∃ d', (decode bytes).result = .ok d' ∧ Record.same d' d = true) ↔ IsDocumentForm {} d bytes) ∧
      ((∃ d', (decode bytes).result = .ok d' ∧ Record.same d' d = true) ↔
        ∃ d', (decodeStream (.ofBytes bytes)).result = .ok [d'] ∧ Record.same d' d = true) := by
  have hone (d : Document) :
      (∃ d', (decode bytes).result = .ok d' ∧ Record.same d' d = true) ↔ IsDocumentForm {} d bytes := by
    simp only [Record.same_iff_eq, exists_eq_right, decode_eq_ok_iff]
  obtain ⟨hcontent, hending⟩ := Source.content_ofBytes bytes (by decide : 0 < Source.readSize) false
  refine ⟨hone d, (hone d).trans ?_⟩
  simp only [Record.same_iff_eq, exists_eq_right]
  rw [decodeStream_eq_ok_iff (by decide) hending, hcontent]
  constructor
  · exact fun hform => ⟨bytes, [], hform, rfl, (List.append_nil bytes).symm⟩
  · rintro ⟨first, later, hform, rfl, rfl⟩
    rwa [List.append_nil]

end Aggregation.Wire
