import Aggregation.Proofs.Wire.Canonical
import Aggregation.Proofs.Wire.Tiling

/-! Bytes that are cut off. Reading a document never looks further than the document goes, so that over a beginning of
the bytes of one nothing else can go wrong before the bytes run out. A stream that is cut gives the documents that
are whole, and says where it was cut unless that is where one ends. -/

namespace Aggregation.Wire

open Stepping Layout Read Reader

variable {l : Limits} {feed feed' : Feed} {d : Document} {bytes more : List UInt8}

/-- Bytes are added to what a source is still to hand out. -/
theorem ReplayBuffer.Window.exists_longer {b : ReplayBuffer} (h : b.Window feed) (hlive : b.Live) (hmore : more ≠ []) :
    ∃ b' : ReplayBuffer, b'.Window ⟨feed.bytes ++ more, feed.ending⟩ ∧ b'.position = b.position ∧ b'.Live := by
  obtain ⟨first, rest, rfl⟩ := List.exists_cons_of_ne_nil hmore
  obtain ⟨deliveries, hsource, hbytes⟩ := h.source_eq
  obtain ⟨source, hsource', hending⟩ := hlive.source_eq
  have hending' : feed.ending = .ends := by
    rw [hsource] at hsource'
    cases hsource'
    exact hending
  refine ⟨{ b with source := some ⟨deliveries ++ [.chunk first rest], feed.ending⟩ }, ?_, rfl, ?_⟩
  · refine ⟨⟨_, rfl, ?_⟩, ?_, h.cursor_le, h.pinned, h.fresh⟩
    · show b.buffer.toList ++ Source.brought (deliveries ++ [.chunk first rest]) =
        (feed.bytes ++ first :: rest).drop b.base
      rw [List.drop_append_of_le_length h.base_le, ← hbytes, List.append_assoc]
      simp [Source.brought, Source.deliveryBytes]
    · rw [List.length_append]
      exact Nat.le_add_right_of_le h.base_le
  · exact ⟨⟨_, rfl, hending'⟩, h.cursor_le⟩

namespace Reader

variable {r q s : Reader}

/-- A reader, and one beside it over a beginning of the bytes alone. -/
structure Cut (feed feed' : Feed) (r q : Reader) : Prop extends Beside r q where
  left : r.input.Window feed
  right : q.input.Window feed'
  starts : feed'.bytes <+: feed.bytes

/-- All that the second reader can lack is bytes. -/
def cut (feed feed' : Feed) : Bond := ⟨Cut feed feed', True, (· = feed'.shortage)⟩

theorem Cut.onInput (h : Cut feed feed' r q) {α : Type} {step : Replay α} (hstep : step.Local) :
    Follows (cut feed feed') (Read.onInput step) (Read.onInput step) r q := by
  obtain ⟨result, next, -, hsettles⟩ := hstep.steady.settles feed r.position
  obtain ⟨b, hr, hb⟩ := hsettles r.input h.left rfl
  have hrun : (Read.onInput step).run.run r = (result, { r with input := b }) := by rw [onInput_run, hr]
  cases result with
  | error e => exact .fails trivial ⟨e, _, hrun⟩
  | ok a =>
      rcases hstep.cut h.starts h.left h.right h.position_eq hr with hlack | ⟨c, hq, hwindow, hposition⟩
      · exact .lacks (by rw [onInput_run, hlack]) rfl
      · refine .same ?_
        rw [Matches, hrun, onInput_run, hq]
        exact ⟨rfl, h.toBeside.onInput hposition, hb.window, hwindow, h.starts⟩

theorem lasting_cut (feed feed' : Feed) : (cut feed feed').Lasting where
  beside h := h.toBeside
  left h := ⟨feed, h.left⟩
  right h := ⟨feed', h.right⟩
  alike hexact := absurd trivial hexact
  lenient_of_lacks _ := trivial
  onInput hstep _ _ h := h.onInput hstep
  foresees hlacks := absurd rfl (hlacks feed'.shortage)
  wear h _ _ hlook _ := ⟨h.wear hlook, h.left, h.right, h.starts⟩
  record hexact := absurd trivial hexact
  compact := by
    intro r q h
    have hr := h.left.reaches_compact
    have hq := h.right.reaches_compact
    have hposition := hr.position_eq.trans (h.position_eq.trans hq.position_eq.symm)
    exact ⟨h.toBeside.onInput hposition, hr.window, hq.window, h.starts⟩

/-- Over a beginning of the bytes a document is read as it is over all of them, or the bytes run out. -/
theorem Cut.readDocument_or (h : Cut feed feed' r q) (hrun : readDocument.run.run r = (.ok d, s)) :
    (readDocument.run.run q).1 = .error feed'.shortage ∨
      ∃ t, readDocument.run.run q = (.ok d, t) ∧ Cut feed feed' s t := by
  rcases (local_readDocument (lasting_cut feed feed') h).ok hrun with ⟨e, hlack, rfl⟩ | hgives
  · exact .inl hlack
  · exact .inr hgives

/-- Where the bytes that are left are a beginning of those of a document, they run out. -/
theorem readDocument_run_of_cut (hl : l.maxDocumentSize < 2147483648) (h : r.Idle l) (hwindow : r.input.Window feed)
    (hform : IsDocumentForm l d (r.input.unread ++ more)) (hmore : more ≠ []) :
    (readDocument.run.run r).1 = .error feed.shortage := by
  obtain ⟨state, hstate, hat⟩ := h
  obtain ⟨input, hlonger, hposition, hlive⟩ := hwindow.exists_longer hat.live hmore
  -- the reader as it would be if the bytes of the document were all there
  let whole : Reader := { r with input }
  have hidle : whole.Idle l := ⟨state, hstate, hlive, hat.limits_eq, hat.frames_eq, hat.state_eq⟩
  have hunread : whole.input.unread = (r.input.unread ++ more) ++ [] := by
    rw [hlonger.unread_eq hlive, hposition, hwindow.unread_eq hat.live, List.append_nil]
    exact List.drop_append_of_le_length hwindow.position_le
  obtain ⟨s, hrun, hadvances, -⟩ :=
    (readDocument_consumes hl hidle _).complete d _ [] hform (Nat.lt_succ_self _) hunread
  have hcut : Cut ⟨feed.bytes ++ more, feed.ending⟩ feed whole r :=
    ⟨⟨hposition, rfl, hidle.state_ne, rfl, fun _ => rfl, rfl⟩, hlonger, hwindow, List.prefix_append _ _⟩
  refine (hcut.readDocument_or hrun).resolve_right ?_
  rintro ⟨t, -, hcut'⟩
  have hend := hadvances.position_eq
  have hplace := hcut'.position_eq
  have hleft := hat.live.length_unread
  have hlast := hcut'.right.position_le
  have hfirst := hwindow.position_le
  have hpositive := List.length_pos_iff.2 hmore
  rw [hwindow.supply_eq] at hleft
  rw [List.length_append] at hend
  rw [position, position] at hplace
  have hstart : whole.input.position = r.input.position := hposition
  omega

end Reader

/-- A document alone, of which the end is cut off. -/
theorem readAlone_run_of_take (hl : l.maxDocumentSize < 2147483648) (hform : IsDocumentForm l d bytes) {cut : Nat}
    (hcut : cut < bytes.length) {source : Source} (hcontent : source.content = bytes.take cut)
    (hending : source.ending = .ends) :
    (readAlone.run.run (.ofSource source l)).1 = .error (.unexpectedEnd cut) := by
  have hlength : source.content.length = cut := by
    rw [hcontent, List.length_take]
    omega
  have hwhole : IsDocumentForm l d ((Reader.ofSource source l).input.unread ++ bytes.drop cut) := by
    show IsDocumentForm l d (source.content ++ bytes.drop cut)
    rwa [hcontent, List.take_append_drop]
  have hmore : bytes.drop cut ≠ [] := fun hnil => Nat.not_le_of_lt hcut (List.drop_eq_nil_iff.1 hnil)
  have hread :=
    readDocument_run_of_cut hl (idle_ofSource hending l 0) (ReplayBuffer.window_of_source source) hwhole hmore
  have hshortage : source.feed.shortage = .unexpectedEnd cut := by
    rw [Feed.shortage, Source.feed, hending, ← hlength]
  rw [readAlone, run_bind_error (Prod.ext hread rfl), hshortage]

namespace DocumentStream

variable {s s' : DocumentStream} {p : Nat}

/-- Where the bytes that are left are a beginning of those of a document, the stream ends for want of bytes. -/
theorem StandsAt.next_of_cut (hl : l.maxDocumentSize < 2147483648) (h : s.StandsAt l feed p)
    (hform : IsDocumentForm l d (feed.bytes.drop p ++ more)) (hne : feed.bytes.drop p ≠ []) (hmore : more ≠ []) :
    ∃ s', s.next = (none, s') ∧ s'.error = some feed.shortage := by
  obtain ⟨r, hend, hadvances, hidle⟩ := isAtEnd_run h.running.idle
  have hunread : r.input.unread = feed.bytes.drop p := hadvances.unread_eq.symm.trans h.unread_eq
  rw [h.unread_eq, decide_eq_false hne] at hend
  have hwindow := (steady_isAtEnd.spends feed _ _ _ h.window h.running.idle.state_ne hend).window
  rw [← hunread] at hform
  have hread := readDocument_run_of_cut hl hidle hwindow hform hmore
  rcases hrun : readDocument.run.run r with ⟨result, r'⟩
  rw [hrun] at hread
  obtain rfl : result = .error feed.shortage := hread
  refine ⟨finish { s with reader := r' } (some feed.shortage), ?_, rfl⟩
  simp only [next, h.running.isFinished_eq, hend, hrun]
  rfl

/-- Where documents end whose bytes stand one after the other. -/
def endOf (ds : List Document) (count : Nat) : Nat := ((ds.take count).flatMap document).length

theorem endOf_cons (d : Document) (ds : List Document) (count : Nat) :
    endOf (d :: ds) (count + 1) = (document d).length + endOf ds count := by
  rw [endOf, List.take_succ_cons, List.flatMap_cons, List.length_append, endOf]

theorem endOf_mono (ds : List Document) {i j : Nat} (h : i ≤ j) : endOf ds i ≤ endOf ds j := by
  obtain ⟨more, rfl⟩ := Nat.exists_eq_add_of_le h
  rw [endOf, endOf, List.take_add, List.flatMap_append, List.length_append]
  exact Nat.le_add_right _ _

/-- What a stream that is cut off gives: the documents that are whole. Then it ends, without an error exactly if the cut
is where the last of them ends, and for want of bytes otherwise. -/
structure GivesWhole (feed : Feed) (ds : List Document) (cut : Nat) (s : DocumentStream) (count : Nat) : Prop where
  le_length : count ≤ ds.length
  endOf_le : endOf ds count ≤ cut
  lt_endOf : ∀ i, count < i → i ≤ ds.length → cut < endOf ds i
  gives : ∀ i (hi : i < count), (s.called i).next.1 = some ds[i]
  ends : (s.called count).next.1 = none
  error_iff : (s.called (count + 1)).error = none ↔ cut = endOf ds count
  error_eq : ∀ e, (s.called (count + 1)).error = some e → e = feed.shortage

/-- A stream that ends at once. -/
theorem givesWhole_zero {ds : List Document} {cut : Nat} (hnext : s.next = (none, s'))
    (hlt : ∀ i, 0 < i → i ≤ ds.length → cut < endOf ds i) (hiff : s'.error = none ↔ cut = 0)
    (herror : ∀ e, s'.error = some e → e = feed.shortage) : GivesWhole feed ds cut s 0 where
  le_length := Nat.zero_le _
  endOf_le := Nat.zero_le _
  lt_endOf := hlt
  gives i hi := absurd hi (Nat.not_lt_zero i)
  ends := by rw [called, Function.iterate_zero_apply, hnext]
  error_iff := by rwa [called_succ_of_next hnext]
  error_eq := by rwa [called_succ_of_next hnext]

/-- A stream that gives the first document and then what a stream cut off gives of the others. -/
theorem GivesWhole.cons {ds : List Document} {cut count : Nat} (hnext : s.next = (some d, s'))
    (h : GivesWhole feed ds cut s' count) : GivesWhole feed (d :: ds) ((document d).length + cut) s (count + 1) where
  le_length := Nat.succ_le_succ h.le_length
  endOf_le := by
    rw [endOf_cons]
    exact Nat.add_le_add_left h.endOf_le _
  lt_endOf := by
    intro i hi hle
    obtain ⟨i, rfl⟩ := Nat.exists_eq_add_one_of_ne_zero (Nat.ne_zero_of_lt hi)
    rw [endOf_cons]
    exact Nat.add_lt_add_left (h.lt_endOf i (Nat.lt_of_succ_lt_succ hi) (Nat.le_of_succ_le_succ hle)) _
  gives := by
    intro i hi
    cases i with
    | zero =>
        rw [called, Function.iterate_zero_apply, hnext]
        rfl
    | succ i =>
        rw [called_succ_of_next hnext]
        exact h.gives i (Nat.lt_of_succ_lt_succ hi)
  ends := by
    rw [called_succ_of_next hnext]
    exact h.ends
  error_iff := by
    rw [called_succ_of_next hnext, h.error_iff, endOf_cons]
    omega
  error_eq := by
    rw [called_succ_of_next hnext]
    exact h.error_eq

/-- A stream of which nothing is left ends, and it is cut where the last document ended. -/
theorem StandsAt.givesWhole_of_nil (h : s.StandsAt l feed p) {ds : List Document}
    (hpositive : ∀ i, 0 < i → i ≤ ds.length → 0 < endOf ds i) (hnil : feed.bytes.drop p = []) :
    GivesWhole feed ds 0 s 0 := by
  obtain ⟨s', hnext, herror⟩ := next_of_nil h.running (h.unread_eq.trans hnil)
  refine givesWhole_zero hnext hpositive (iff_of_true herror rfl) fun e he => ?_
  rw [herror] at he
  cases he

/-- A stream that is cut off in the first document, or in front of it, gives none. -/
theorem StandsAt.givesWhole_of_lt (hl : l.maxDocumentSize < 2147483648) (h : s.StandsAt l feed p)
    (hform : IsDocumentForm l d (document d)) (rest : List Document) {cut : Nat} (hlt : cut < (document d).length)
    (hbytes : feed.bytes.drop p = (document d).take cut) : GivesWhole feed (d :: rest) cut s 0 := by
  have hend (i : Nat) (hi : 0 < i) (_ : i ≤ (d :: rest).length) : cut < endOf (d :: rest) i := by
    obtain ⟨i, rfl⟩ := Nat.exists_eq_add_one_of_ne_zero (Nat.ne_of_gt hi)
    rw [endOf_cons]
    exact Nat.lt_add_right _ hlt
  rcases Nat.eq_zero_or_pos cut with rfl | hpositive
  · exact h.givesWhole_of_nil hend hbytes
  · have hwhole : IsDocumentForm l d (feed.bytes.drop p ++ (document d).drop cut) := by
      rwa [hbytes, List.take_append_drop]
    have hmore : (document d).drop cut ≠ [] := fun hnil => Nat.not_le_of_lt hlt (List.drop_eq_nil_iff.1 hnil)
    have hne : feed.bytes.drop p ≠ [] := by
      rw [hbytes]
      apply List.ne_nil_of_length_pos
      rw [List.length_take]
      omega
    obtain ⟨s', hnext, herror⟩ := h.next_of_cut hl hwhole hne hmore
    refine givesWhole_zero hnext hend ?_ fun e he => ?_
    · rw [herror]
      exact iff_of_false (fun hnone => by cases hnone) (Nat.ne_of_gt hpositive)
    · exact (Option.some.inj (herror.symm.trans he)).symm

/-- A stream over a beginning of the bytes of documents gives those that are whole. -/
theorem StandsAt.exists_givesWhole (hl : l.maxDocumentSize < 2147483648) {ds : List Document} {cut : Nat}
    (h : s.StandsAt l feed p) (hforms : ∀ d ∈ ds, IsDocumentForm l d (document d))
    (hcut : cut ≤ (ds.flatMap document).length) (hbytes : feed.bytes.drop p = (ds.flatMap document).take cut) :
    ∃ count, GivesWhole feed ds cut s count := by
  induction ds generalizing s p cut with
  | nil =>
      obtain rfl : cut = 0 := Nat.le_zero.1 hcut
      exact ⟨0, h.givesWhole_of_nil (fun i hi hle => absurd hi (Nat.not_lt_of_le hle)) hbytes⟩
  | cons d rest ih =>
      have hform := hforms d List.mem_cons_self
      rw [List.flatMap_cons] at hcut hbytes
      rw [List.length_append] at hcut
      rcases Nat.lt_or_ge cut (document d).length with hlt | hge
      · rw [List.take_append_of_le_length (Nat.le_of_lt hlt)] at hbytes
        exact ⟨0, h.givesWhole_of_lt hl hform rest hlt hbytes⟩
      · obtain ⟨later, rfl⟩ := Nat.exists_eq_add_of_le hge
        rw [List.take_length_add_append] at hbytes
        obtain ⟨s', hnext, hstands⟩ := h.next_of_form hl hform hbytes
        have hrest : feed.bytes.drop (p + (document d).length) = (rest.flatMap document).take later := by
          rw [← List.drop_drop, hbytes, List.drop_left]
        obtain ⟨count, hgives⟩ := ih hstands (fun d hd => hforms d (List.mem_cons_of_mem _ hd)) (by omega) hrest
        exact ⟨count + 1, hgives.cons hnext⟩

/-- A document is given if it ends before the cut or there. -/
theorem GivesWhole.lt_iff {ds : List Document} {cut count i : Nat} (h : GivesWhole feed ds cut s count)
    (hi : i < ds.length) : i < count ↔ endOf ds (i + 1) ≤ cut := by
  constructor
  · exact fun hlt => Nat.le_trans (endOf_mono ds hlt) h.endOf_le
  · intro hle
    by_contra hge
    exact Nat.not_lt_of_le hle (h.lt_endOf (i + 1) (by omega) hi)

/-- The cut is where the last whole document ends, if it is where any of them does. -/
theorem GivesWhole.cut_eq_iff {ds : List Document} {cut count : Nat} (h : GivesWhole feed ds cut s count) :
    cut = endOf ds count ↔ ∃ i ≤ ds.length, cut = endOf ds i := by
  constructor
  · exact fun heq => ⟨count, h.le_length, heq⟩
  · rintro ⟨i, hi, rfl⟩
    have hle : i ≤ count := by
      by_contra hgt
      exact absurd (h.lt_endOf i (Nat.lt_of_not_le hgt) hi) (Nat.lt_irrefl _)
    exact Nat.le_antisymm (endOf_mono ds hle) h.endOf_le

/-- Whatever has been encoded, wherever it is cut off and however the rest of it arrives: the documents that end before
the cut or there are given, and no others. Then the stream ends, without an error exactly if the cut is where a document
ends or the first one begins, and otherwise with the error that the bytes ended unexpectedly at the cut. A document that
is read alone, under the limits or under those by default, ends so wherever it is cut. -/
theorem next_of_take (size : Int32) (nesting : Nat) (ds : List Document) (sink : Sink) (n : Nat)
    (hlimits : (Limits.ofWord size nesting).fault? = none) (hdistinct : ∀ d ∈ ds, HasDistinctNames (.document d))
    (hsink : sink.refusal = none) (hencode : (encodeStream ds sink (.ofWord size nesting)).result = .ok n) :
    let l := Limits.ofWord size nesting
    (∃ bytes, (encodeStream ds sink l).bytes = sink.received.toList ++ bytes ∧ n = bytes.length ∧
      (∀ i, (encodeStream (ds.take i) sink l).result = .ok (endOf ds i)) ∧
      ∀ k ≤ n, ∀ source : Source, source.content = bytes.take k → source.ending = .ends →
        let s := (DocumentStream.ofSource source l).called
        (∃ count ≤ ds.length, (∀ i < ds.length, i < count ↔ endOf ds (i + 1) ≤ k) ∧
          (∀ i (hi : i < ds.length), i < count → (s i).next.1 = some ds[i]) ∧ (s count).next.1 = none ∧
          ((s (count + 1)).error = none ↔ ∃ i ≤ ds.length, k = endOf ds i) ∧
          ∀ e, (s (count + 1)).error = some e → e = .unexpectedEnd k) ∧
        ∀ d, ds = [d] → k < n → (readAlone.run.run (.ofSource source l)).1 = .error (.unexpectedEnd k)) ∧
    ∀ d bytes, HasDistinctNames (.document d) → (encode d).result = .ok bytes →
      ∀ k < bytes.length, (decode (bytes.take k)).result = .error (.unexpectedEnd k) := by
  intro l
  have hl : l.maxDocumentSize < 2147483648 := Limits.ofWord_lt size nesting
  have hadmits := admits_of_encodeStream hsink hencode
  obtain ⟨hresult, hbytes⟩ := encodeStream_of_admits hsink hadmits
  have hn : n = (ds.flatMap document).length := Except.ok.inj (hencode.symm.trans hresult)
  have hforms : ∀ d ∈ ds, IsDocumentForm l d (document d) := fun d hd =>
    isForm_value (.document d) (hadmits d hd) (hdistinct d hd) ((admits_document_iff hlimits d).1 (hadmits d hd)).2.2
  refine ⟨⟨ds.flatMap document, hbytes, hn, fun i => ?_, fun k hk source hcontent hending => ⟨?_, ?_⟩⟩, ?_⟩
  · exact (encodeStream_of_admits hsink fun d hd => hadmits d (List.mem_of_mem_take hd)).1
  · have hlength : source.content.length = k := by
      rw [hcontent, List.length_take]
      omega
    have hshortage : source.feed.shortage = .unexpectedEnd k := by
      rw [Feed.shortage, Source.feed, hending, ← hlength]
    obtain ⟨count, h⟩ := (standsAt_ofSource hending l).exists_givesWhole hl hforms (hn ▸ hk) hcontent
    refine ⟨count, h.le_length, fun i hi => h.lt_iff hi, fun i _ hlt => h.gives i hlt, h.ends, ?_, fun e he => ?_⟩
    · exact h.error_iff.trans h.cut_eq_iff
    · rw [h.error_eq e he, hshortage]
  · rintro d rfl hlt
    have hsingle : [d].flatMap document = document d := List.flatMap_singleton document d
    rw [hn, hsingle] at hlt
    rw [hsingle] at hcontent
    exact readAlone_run_of_take hl (hforms d List.mem_cons_self) hlt hcontent hending
  · rintro d bytes hdistinct hencode k hk
    obtain ⟨hadmits, rfl⟩ := (encode_eq_ok_iff d bytes).1 hencode
    have hform : IsDocumentForm {} d (document d) :=
      isForm_value _ hadmits hdistinct ((admits_document_iff (by decide) d).1 hadmits).2.2
    obtain ⟨hcontent, hending⟩ := Source.content_ofBytes ((document d).take k) (by decide : 0 < Source.readSize) false
    exact readAlone_run_of_take (by decide) hform hk hcontent hending

/-- A document and one with it as the scope of code in an array, cut in the name of the code's item and before the last
byte of the first document. -/
theorem next_of_take_two :
    let d : Document := ⟨[("a", .int32 7)]⟩
    let ds : List Document := [d, ⟨[("b", .array [.scopedCode "f" d])]⟩]
    let l : Limits := .ofWord 100 4
    l.fault? = none ∧ (∀ d ∈ ds, HasDistinctNames (.document d)) ∧ (default : Sink).refusal = none ∧
      (encodeStream ds default l).result = .ok 50 ∧
      (∃ bytes count, (encodeStream ds default l).bytes = bytes ∧ bytes.length = 50 ∧
        let s := (DocumentStream.ofSource (.ofBytes (bytes.take 25) 1 none true) l).called
        count = 1 ∧ (s 0).next.1 = some d ∧ (s 1).next.1 = none ∧ ∀ e, (s 2).error = some e → e = .unexpectedEnd 25) ∧
      HasDistinctNames (.document d) ∧ ∃ bytes, (encode d).result = .ok bytes ∧ 11 < bytes.length ∧
        (decode (bytes.take 11)).result = .error (.unexpectedEnd 11) := by
  intro d ds l
  have hlimits : l.fault? = none := by decide
  have hd : HasDistinctNames (.document d) := ⟨List.nodup_singleton _, trivial, trivial⟩
  have hdistinct : ∀ d ∈ ds, HasDistinctNames (.document d) :=
    List.forall_mem_cons.2 ⟨hd, List.forall_mem_singleton.2 ⟨List.nodup_singleton _, ⟨hd, trivial⟩, trivial⟩⟩
  have hadmits : ∀ d ∈ ds, Admits l 0 (.document d) := by
    intro d hd
    rw [admits_document_iff hlimits]
    simp only [ds, List.mem_cons, List.not_mem_nil, or_false] at hd
    rcases hd with rfl | rfl
    · exact ⟨by simp [d, IsNulFree, AreNulFree], by decide, by decide⟩
    · exact ⟨by simp [d, IsNulFree, AreNulFree, ItemsAreNulFree], by decide, by decide⟩
  have hencode : (encodeStream ds default l).result = .ok 50 := (encodeStream_of_admits rfl hadmits).1
  have hone : (encode d).result = .ok (document d) :=
    (encode_eq_ok_iff d _).2 ⟨(admits_document_iff (by decide) d).2
      ⟨by simp [d, IsNulFree, AreNulFree], by decide, by decide⟩, rfl⟩
  obtain ⟨⟨bytes, hbytes, hlength, -, hstream⟩, halone⟩ :=
    next_of_take 100 4 ds default 50 hlimits hdistinct rfl hencode
  obtain ⟨hcontent, hending⟩ := Source.content_ofBytes (bytes.take 25) Nat.one_pos true
  obtain ⟨⟨count, hle, hwhole, hgives, hends, -, herror⟩, -⟩ := hstream 25 (by decide) _ hcontent hending
  have hfirst : 0 < count := (hwhole 0 (by decide)).2 (by decide)
  have hsecond : ¬1 < count := fun hlt => absurd ((hwhole 1 (by decide)).1 hlt) (by decide)
  obtain rfl : count = 1 := by omega
  exact ⟨hlimits, hdistinct, rfl, hencode, ⟨bytes, 1, hbytes, hlength.symm, rfl, hgives 0 (by decide) hfirst, hends,
    herror⟩, hd, _, hone, by decide, halone d _ hd hone 11 (by decide)⟩

end DocumentStream

end Aggregation.Wire
