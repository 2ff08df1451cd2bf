import Aggregation.Proofs.Wire.Drafts
import Aggregation.Proofs.Wire.ReadingWalks
import Aggregation.Proofs.Wire.LostDocuments

/-! What a sink has at any time. Calls may fail, and whoever makes them may go on as if they had not. Either the
document that is put together is what the calls that succeeded say, or it is lost; so the sink has whole documents. One
kind of failure is left out: that of an item of an array after its tag and its name have been put down, since the array
goes on after it. -/

namespace Aggregation.Wire.Writer

open Stepping Layout Write

/-- Whether an operation fails after it has put down the tag and the name of an item. -/
def tearsItem (w : Writer) : Operation → Bool
  | .call c =>
    w.state = .value && w.frames.head?.map OpenFrame.kind = some .array &&
      match (c.write.run.run w).1 with
      | .error (.invalidName _) | .error (.nestingTooDeep _ _) => true
      | _ => false
  | _ => false

/-- Whether one of some operations in turn does. -/
def tearsItems (w : Writer) : List Operation → Bool
  | [] => false
  | operation :: later => w.tearsItem operation || (w.operate operation).tearsItems later

/-- The sink has whole documents, after what it had at the start. -/
def HasWhole (l : Limits) (start : List UInt8) (w : Writer) : Prop :=
  ∃ ds : List Document, (∀ d ∈ ds, Admits l 0 (.document d)) ∧
    w.sink.received.toList = start ++ ds.flatMap document

/-- A document is put together, or it is lost. -/
inductive Sound (l : Limits) (start : List UInt8) (w : Writer) : Prop
  | drafting {ds : List Document} {draft : Draft} (h : w.Drafting l start ds draft)
  | lost (h : w.Lost) (hwhole : w.HasWhole l start)

section

variable {l : Limits} {start : List UInt8} {ds : List Document} {draft : Draft} {w t : Writer}

theorem Handed.hasWhole (h : w.Handed l start ds) : w.HasWhole l start :=
  ⟨ds, h.limits_eq ▸ h.admitted, h.received_eq⟩

theorem Sound.hasWhole (h : w.Sound l start) : w.HasWhole l start := by
  cases h with
  | drafting h => exact h.handed.hasWhole
  | lost _ hwhole => exact hwhole

theorem HasWhole.of_eq (h : w.HasWhole l start) (hsink : t.sink = w.sink) : t.HasWhole l start := by
  rwa [HasWhole, hsink]

theorem rooted_frames (begun : Nat) (d : Draft) : Rooted (d.frames begun) := by
  induction d generalizing begun with
  | nil => trivial
  | cons level outer ih =>
      cases outer with
      | nil => rfl
      | cons around outer => exact ih 1

theorem named?_eq_none (hkind : w.frames.head?.map OpenFrame.kind ≠ some .array) (hname : w.pendingName = none) :
    w.named? = none := by
  rw [named?]
  cases hframes : w.frames with
  | nil => rfl
  | cons frame frames =>
      rw [hframes] at hkind
      dsimp only
      rw [if_neg fun heq => hkind (congrArg some heq), hname]
      rfl

/-- A value that has been begun, but not in an array, has taken the name that there was. -/
theorem Begins.pendingName_eq {type : ElementType} (h : w.Begins type t)
    (hkind : w.frames.head?.map OpenFrame.kind ≠ some .array) :
    t.frames = w.frames ∧ t.pendingName = none ∧ t.state = .value ∧ t.sink = w.sink := by
  obtain ⟨name, s, hnamed, rfl⟩ := h.named
  rw [named?] at hnamed
  cases hframes : w.frames with
  | nil =>
      rw [hframes] at hnamed
      cases hnamed
  | cons frame frames =>
      rw [hframes] at hnamed hkind
      dsimp only at hnamed
      rw [if_neg fun heq => hkind (congrArg some heq)] at hnamed
      obtain ⟨given, -, hgiven⟩ := Option.map_eq_some_iff.1 hnamed
      cases hgiven
      exact ⟨rfl, rfl, h.state_eq, rfl⟩

/-- The document is lost whose value is not completed, unless it is an item. -/
theorem Begins.lost {type : ElementType} (h : w.Begins type t)
    (hkind : w.frames.head?.map OpenFrame.kind ≠ some .array) (bytes : List UInt8) :
    (t.append bytes).Lost ∧ t.Lost ∧ t.sink = w.sink := by
  obtain ⟨hframes, hname, hstate, hsink⟩ := h.pendingName_eq hkind
  rw [← hframes] at hkind
  exact ⟨.stuck (.inr ⟨hstate, named?_eq_none hkind hname⟩), .stuck (.inr ⟨hstate, named?_eq_none hkind hname⟩), hsink⟩

/-- An error that comes after the tag and the name of a value does not come in an array, if no item is torn. -/
theorem kind_ne_array {c : Call} {e : WireError} (hrun : c.write.run.run w = (.error e, t)) (hstate : w.state = .value)
    (hlate : (∃ name, e = .invalidName name) ∨ ∃ depth max, e = .nestingTooDeep depth max)
    (hspared : w.tearsItem (.call c) = false) : w.frames.head?.map OpenFrame.kind ≠ some .array := by
  intro hkind
  rcases hlate with ⟨name, rfl⟩ | ⟨depth, max, rfl⟩
  · simp [tearsItem, hrun, hstate, hkind] at hspared
  · simp [tearsItem, hrun, hstate, hkind] at hspared

theorem Drafting.begun (h : w.Drafting l start ds draft) (hframes : w.frames ≠ []) :
    w.state ≠ .initial ∧ w.state ≠ .done := by
  have hexpects := h.expects
  match draft with
  | [] => exact absurd h.frames_eq hframes
  | .fields _ _ :: _ => rcases hexpects with ⟨hstate, -⟩ | ⟨hstate, -⟩ <;> rw [hstate] <;> exact ⟨nofun, nofun⟩
  | .items _ :: _ | .code _ :: _ =>
      rw [hexpects.1]
      exact ⟨nofun, nofun⟩

/-- Where a call fails that tears no item, the draft is as it was, or the document is lost. -/
theorem Drafting.sound_of_leaves (h : w.Drafting l start ds draft) {c : Call} {e : WireError}
    (hrun : c.write.run.run w = (.error e, t)) (hleaves : w.Leaves c e t)
    (hspared : w.tearsItem (.call c) = false) : t.Sound l start := by
  have hwhole := h.handed.hasWhole
  cases hleaves with
  | same => exact .drafting h
  | tornPattern hbegins =>
      have hkind := kind_ne_array hrun hbegins.state_eq (.inl ⟨_, rfl⟩) hspared
      obtain ⟨-, hlost, hsink⟩ := hbegins.lost hkind []
      exact .lost hlost (hwhole.of_eq hsink)
  | @tornOptions pattern _ _ hbegins =>
      have hkind := kind_ne_array hrun hbegins.state_eq (.inl ⟨_, rfl⟩) hspared
      obtain ⟨hlost, -, hsink⟩ := hbegins.lost hkind (cstring pattern)
      exact .lost hlost (hwhole.of_eq hsink)
  | tooDeep hbegins =>
      have hkind := kind_ne_array hrun hbegins.state_eq (.inr ⟨_, _, rfl⟩) hspared
      obtain ⟨-, hlost, hsink⟩ := hbegins.lost hkind []
      exact .lost hlost (hwhole.of_eq hsink)
  | tooLarge hclosing hstate hframes hpositive hlarge =>
      obtain ⟨frames, pending, hsuffix, rfl⟩ := hclosing
      have hrooted : Rooted w.frames := h.frames_eq ▸ rooted_frames 0 draft
      exact .lost (.overgrown ⟨hpositive, hlarge, rooted_of_suffix hsuffix hrooted, h.begun hframes⟩) (hwhole.of_eq rfl)
  | untaken _ _ hrefusal => exact absurd h.handed.refusal_eq hrefusal

theorem Sound.call (h : w.Sound l start) (hcoherent : w.Coherent) {c : Call}
    (hspared : w.tearsItem (.call c) = false) : (c.write.run.run w).2.Sound l start := by
  cases h with
  | drafting h =>
      rcases hrun : c.write.run.run w with ⟨e | _, t⟩
      · exact h.sound_of_leaves hrun (hcoherent.leaves_of_error hrun) hspared
      · obtain ⟨ds', draft', -, h'⟩ := h.call hrun
        exact .drafting h'
  | lost h hwhole =>
      obtain ⟨hlost, hsink⟩ := h.call hcoherent c
      exact .lost hlost (hwhole.of_eq hsink)

theorem Sound.operate (h : w.Sound l start) (hcoherent : w.Coherent) {operation : Operation}
    (hspared : w.tearsItem operation = false) : (w.operate operation).Sound l start := by
  cases operation with
  | call c => exact h.call hcoherent hspared
  | close => exact .lost (lost_close w) (h.hasWhole.of_eq rfl)
  | release => exact .lost (lost_release w) (h.hasWhole.of_eq rfl)

theorem Sound.after (h : w.Sound l start) (hcoherent : w.Coherent) {operations : List Operation}
    (hspared : w.tearsItems operations = false) : (w.after operations).Sound l start := by
  induction operations generalizing w with
  | nil => exact h
  | cons operation later ih =>
      rw [tearsItems, Bool.or_eq_false_iff] at hspared
      exact ih (h.operate hcoherent hspared.1) (hcoherent.operate operation) hspared.2

/-- At any time the sink has whole documents after what it had at the start, and they are walked through to their end;
but for items that are torn. -/
theorem received_eq_documents (size : Int32) (nesting : Nat) (sink : Sink) (operations : List Operation)
    (hlimits : (Limits.ofWord size nesting).fault? = none) (hsink : sink.refusal = none)
    (hspared : (ofSink sink (.ofWord size nesting)).tearsItems operations = false) :
    ∃ ds : List Document, (∀ d ∈ ds, Admits (.ofWord size nesting) 0 (.document d)) ∧
      ((ofSink sink (.ofWord size nesting)).after operations).sink.received.toList =
        sink.received.toList ++ ds.flatMap document ∧
      ∀ (source : Source) (serial : Nat), source.content = ds.flatMap document → source.ending = .ends →
        ∃ r r', Walks (.ofSource source (.ofWord size nesting) serial) (ds.flatMap heardDocument) r ∧
          Reader.isAtEnd.run.run r = (.ok true, r') ∧ r'.position = (ds.flatMap document).length := by
  have hcoherent : (ofSink sink (.ofWord size nesting)).Coherent := coherent_after sink _ []
  have hstart := Sound.drafting (drafting_ofSink hsink (.ofWord size nesting))
  obtain ⟨ds, hadmitted, hreceived⟩ := (hstart.after hcoherent hspared).hasWhole
  refine ⟨ds, hadmitted, hreceived, fun source serial hcontent hending => ?_⟩
  exact exists_walks (Limits.ofWord_lt size nesting) hlimits hadmitted hcontent hending serial

/-- A name with a NUL is refused and another is given, a container is closed that is not open, and the document that
comes after is lost when its only value is refused. -/
theorem received_eq_documents_refused :
    ∃ (operations : List Operation) (ds : List Document),
      operations = [.call .startDocument, .call (.writeName "a\x00"), .call .endArray, .call (.writeName "a"),
        .call .startArray, .call .endArray, .call .endDocument, .call .startDocument, .call (.writeName "r"),
        .call (.writeRegularExpression "\x00" ""), .call .endDocument, .close] ∧
      (ofSink default (.ofWord 20 2)).tearsItems operations = false ∧
      ((ofSink default (.ofWord 20 2)).after operations).sink.received.toList = ds.flatMap document ∧
      (ds.flatMap document).length = 13 ∧
      ∃ r r', Walks (.ofSource (.ofBytes (ds.flatMap document) 1 none true) (.ofWord 20 2) 0)
          (ds.flatMap heardDocument) r ∧
        Reader.isAtEnd.run.run r = (.ok true, r') ∧ r'.position = 13 := by
  have hspared : (ofSink default (.ofWord 20 2)).tearsItems
      [.call .startDocument, .call (.writeName "a\x00"), .call .endArray, .call (.writeName "a"), .call .startArray,
        .call .endArray, .call .endDocument, .call .startDocument, .call (.writeName "r"),
        .call (.writeRegularExpression "\x00" ""), .call .endDocument, .close] = false := by
    decide +kernel
  obtain ⟨ds, -, hreceived, hwalks⟩ := received_eq_documents 20 2 default _ (by decide) rfl hspared
  have hlength : (ds.flatMap document).length = 13 :=
    (congrArg List.length (hreceived : _ = ds.flatMap document)).symm.trans (by decide +kernel)
  obtain ⟨hcontent, hending⟩ := Source.content_ofBytes (ds.flatMap document) Nat.one_pos true
  obtain ⟨r, r', hwalk, hend, hposition⟩ := hwalks _ 0 hcontent hending
  exact ⟨_, ds, rfl, hspared, hreceived, hlength, r, r', hwalk, hend, hposition.trans hlength⟩

/-- The item of the array that is refused has its tag and its name in what the sink gets, and nothing after them. -/
theorem regularExpression_tears_item :
    ∃ w : Writer, w = (ofSink default).after [.call .startDocument, .call (.writeName "a"), .call .startArray,
        .call (.writeRegularExpression "a\x00b" ""), .call .endArray, .call .endDocument] ∧
      w.sink.received.toList = [16, 0, 0, 0, 4, 97, 0, 8, 0, 0, 0, 11, 48, 0, 0, 0] ∧
      ∀ heard r, Walks (.ofSource (.ofBytes w.sink.received.toList)) heard r →
        (Reader.isAtEnd.run.run r).1 ≠ .ok true := by
  have hreceived : ((ofSink default).after [.call .startDocument, .call (.writeName "a"), .call .startArray,
      .call (.writeRegularExpression "a\x00b" ""), .call .endArray, .call .endDocument]).sink.received.toList =
        [16, 0, 0, 0, 4, 97, 0, 8, 0, 0, 0, 11, 48, 0, 0, 0] := by
    decide +kernel
  refine ⟨_, rfl, hreceived, fun heard r hwalks hend => ?_⟩
  rw [hreceived] at hwalks
  -- the eighth call fails for want of bytes, and before it the reader is never at the end
  have hshort : heard.length ≤ 7 := by
    by_contra hlong
    have hok := hwalks.isOk_iterate 7 (by omega)
    exact absurd hok (by decide +kernel)
  have hnever : ∀ i ≤ 7, (Reader.isAtEnd.run.run (Reader.forward^[i] (.ofSource
      (.ofBytes [16, 0, 0, 0, 4, 97, 0, 8, 0, 0, 0, 11, 48, 0, 0, 0])))).1.toOption ≠ some true := by
    decide +kernel
  apply hnever heard.length hshort
  rw [← hwalks.eq_iterate, hend]
  rfl

end

end Aggregation.Wire.Writer
