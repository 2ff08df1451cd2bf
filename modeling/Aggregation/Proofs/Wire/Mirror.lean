import Aggregation.Proofs.Wire.Drafts
import Aggregation.Proofs.Wire.ReadingWalks

/-! What is written and what is heard. Every call of a writer has calls of a reader that mirror it: a value is announced
by its type and its name and then read, and a container is entered and left. Where a writer stands tells the name, which
in an array is an index; the documents that the writer has handed over say the same as the calls. -/

namespace Aggregation.Wire

open Stepping Layout

/-- Where a writer stands in a container. -/
inductive Place where
  /-- In a document, after a name. -/
  | field (name : String)
  /-- In an array, before the item of an index. -/
  | item (index : Nat)
  /-- After code, of which the scope is missing. -/
  | code
  deriving DecidableEq, Repr

namespace Place

/-- The name of the next value. -/
def label : Place → String
  | field name => name
  | item index => toString index
  | code => ""

/-- The place after one more value. -/
def onward : Place → Place
  | item index => item (index + 1)
  | place => place

/-- The places after one more value in the innermost. -/
def advance : List Place → List Place
  | [] => []
  | place :: outer => place.onward :: outer

end Place

namespace Writer

/-- The places after a call that succeeds, the innermost first. -/
def Call.place : Call → List Place → List Place
  | writeName name, _ :: outer => .field name :: outer
  | startDocument, places => .field "" :: places
  | startArray, places => .item 0 :: places
  | writeScopedCode _, places => .code :: places
  | endDocument, _ :: .code :: outer => Place.advance outer
  | endDocument, _ :: outer => Place.advance outer
  | endArray, _ :: outer => Place.advance outer
  | _, places => Place.advance places

/-- What announces the next value at a place: nothing at the top and after code. -/
def announce (type : ElementType) : List Place → List Heard
  | [] => []
  | .code :: _ => []
  | place :: _ => announced type place.label

/-- What is heard where a call has been made at some places. -/
def Call.heard (places : List Place) : Call → List Heard
  | writeName _ => []
  | startDocument => announce .document places ++ [⟨.startDocument, ()⟩]
  | startArray => announce .array places ++ [⟨.startArray, ()⟩]
  | writeScopedCode code => announce .scopedCode places ++ [⟨.readScopedCode, code⟩]
  | endDocument => documentEnd
  | endArray => arrayEnd
  | c => (c.scalar?.map fun v => announce v.elementType places ++ heardValue v).getD []

/-- What is heard where calls have been made in turn. -/
def mirror : List Place → List Call → List Heard
  | _, [] => []
  | places, c :: later => c.heard places ++ mirror (c.place places) later

end Writer

namespace Level

/-- Where a writer stands in a level. -/
def place : Level → Place
  | fields _ name => .field name
  | items done => .item done.length
  | code _ => .code

/-- The call that opens a level. -/
def opening : Level → Heard
  | fields _ _ => ⟨.startDocument, ()⟩
  | items _ => ⟨.startArray, ()⟩
  | code c => ⟨.readScopedCode, c⟩

/-- What is heard of what has been completed. -/
def heard : Level → List Heard
  | fields done _ => heardFields done
  | items done => heardItems 0 done
  | code _ => []

end Level

namespace Draft

/-- Where a writer stands in the levels of a draft. -/
def places (d : Draft) : List Place := d.map Level.place

/-- What is heard of a draft. -/
def heard : Draft → List Heard
  | [] => []
  | level :: outer =>
    heard outer ++ (Writer.announce level.type (places outer) ++ [level.opening]) ++ level.heard

end Draft

section

variable {level : Level} {outer : Draft}

theorem announce_places (h : level.TakesValues) (type : ElementType) :
    Writer.announce type (Draft.places (level :: outer)) = announced type level.label := by
  cases level with
  | code c => exact h.elim
  | fields done name => rfl
  | items done => rfl

theorem heardFields_append (done : List (String × Value)) (name : String) (v : Value) :
    heardFields (done ++ [(name, v)]) = heardFields done ++ (announced v.elementType name ++ heardValue v) := by
  induction done with
  | nil => simp [heardFields]
  | cons first done ih =>
      obtain ⟨name', v'⟩ := first
      simp only [List.cons_append, heardFields, ih, List.append_assoc]

theorem heardItems_append (index : Nat) (done : List Value) (v : Value) :
    heardItems index (done ++ [v]) =
      heardItems index done ++ (announced v.elementType (toString (index + done.length)) ++ heardValue v) := by
  induction done generalizing index with
  | nil => simp [heardItems]
  | cons first done ih =>
      simp only [List.cons_append, heardItems, ih, List.append_assoc, List.length_cons]
      rw [Nat.add_comm done.length, Nat.add_assoc]

theorem Level.heard_add (h : level.TakesValues) (v : Value) :
    (level.add v).heard = level.heard ++ (announced v.elementType level.label ++ heardValue v) := by
  cases level with
  | fields done name => exact heardFields_append done name v
  | items done =>
      have happend := heardItems_append 0 done v
      rwa [Nat.zero_add] at happend
  | code c => exact h.elim

/-- What is open within a level that takes values is announced there. -/
theorem Draft.heard_inner (h : level.TakesValues) (inner : Level) :
    Draft.heard (inner :: level :: outer) =
      Draft.heard (level :: outer) ++ (announced inner.type level.label ++ [inner.opening]) ++ inner.heard := by
  rw [Draft.heard, announce_places h]

/-- A scope is not announced. -/
theorem Draft.heard_scope (done : List (String × Value)) (written code : String) :
    Draft.heard (.fields done written :: .code code :: outer) =
      Draft.heard (.code code :: outer) ++ [⟨.startDocument, ()⟩] ++ heardFields done := rfl

/-- One more value in a level is heard after what has been heard. -/
theorem Draft.heard_add (h : level.TakesValues) (v : Value) :
    Draft.heard (level.add v :: outer) =
      Draft.heard (level :: outer) ++ (announced v.elementType level.label ++ heardValue v) := by
  have hopening : (level.add v).opening = level.opening ∧ (level.add v).type = level.type := by
    cases level with
    | code c => exact h.elim
    | fields done name => exact ⟨rfl, rfl⟩
    | items done => exact ⟨rfl, rfl⟩
  rw [Draft.heard, Draft.heard, Level.heard_add h, hopening.1, hopening.2, List.append_assoc _ level.heard]

theorem Level.place_add (h : level.TakesValues) (v : Value) : (level.add v).place = level.place.onward := by
  cases level with
  | fields done name => rfl
  | items done => simp [Level.add, Level.place, Place.onward]
  | code c => exact h.elim

end

namespace Writer

theorem Call.heard_of_scalar {c : Call} {v : Value} (hc : c.scalar? = some v) (places : List Place) :
    c.heard places = announce v.elementType places ++ heardValue v ∧ c.place places = Place.advance places := by
  cases c <;> cases hc <;> exact ⟨rfl, rfl⟩

theorem places_add {level : Level} (h : level.TakesValues) (v : Value) (outer : Draft) :
    Draft.places (level.add v :: outer) = Place.advance (Draft.places (level :: outer)) := by
  rw [Draft.places, Draft.places, List.map_cons, List.map_cons, Level.place_add h]
  rfl

theorem place_endDocument {level : Level} (h : level.TakesValues) (done : List (String × Value)) (written : String)
    (outer : Draft) :
    Call.endDocument.place (Draft.places (.fields done written :: level :: outer)) =
      Place.advance (Draft.places (level :: outer)) := by
  cases level with
  | code c => exact h.elim
  | fields done name => rfl
  | items done => rfl

/-- What a call does to documents and a draft is heard as what mirrors it, and leads to the places after it. -/
theorem Takes.heard_eq {ds ds' : List Document} {draft draft' : Draft} {c : Call} (h : Takes ds draft c ds' draft') :
    ds'.flatMap heardDocument ++ draft'.heard = ds.flatMap heardDocument ++ draft.heard ++ c.heard draft.places ∧
      draft'.places = c.place draft.places := by
  cases h with
  | name name => exact ⟨by simp [Draft.heard, Level.heard, Level.type, Level.opening, Call.heard], rfl⟩
  | top => exact ⟨by simp [Draft.heard, Level.heard, Level.opening, Level.type, Call.heard, heardFields], rfl⟩
  | scope => exact ⟨by simp [Draft.heard, Level.heard, Level.opening, Level.type, Call.heard, heardFields], rfl⟩
  | document hlevel =>
      exact ⟨by simp [Draft.heard, Level.heard, Level.opening, Level.type, Call.heard, heardFields], rfl⟩
  | array hlevel => exact ⟨by simp [Draft.heard, Level.heard, Level.opening, Level.type, Call.heard, heardItems], rfl⟩
  | code hlevel code => exact ⟨by simp [Draft.heard, Level.heard, Level.opening, Level.type, Call.heard], rfl⟩
  | scalar hlevel hc =>
      obtain ⟨hheard, hplace⟩ := Call.heard_of_scalar hc _
      rw [hheard, hplace, announce_places hlevel, Draft.heard_add hlevel]
      exact ⟨by simp only [List.append_assoc], places_add hlevel _ _⟩
  | endTop =>
      refine ⟨?_, rfl⟩
      simp [Draft.heard, Level.heard, Level.opening, Call.heard, announce, Draft.places, heardDocument]
  | endDocument hlevel =>
      rw [Draft.heard_add hlevel, Draft.heard_inner hlevel, places_add hlevel]
      refine ⟨?_, (place_endDocument hlevel _ _ _).symm⟩
      simp [Level.heard, Level.opening, Level.type, Call.heard, heardValue, Value.elementType]
  | endScope hlevel =>
      rw [Draft.heard_add hlevel, Draft.heard_scope, Draft.heard_inner hlevel, places_add hlevel]
      refine ⟨?_, rfl⟩
      simp [Level.heard, Level.opening, Level.type, Call.heard, heardValue, Value.elementType]
  | endArray hlevel =>
      rw [Draft.heard_add hlevel, Draft.heard_inner hlevel, places_add hlevel]
      refine ⟨?_, rfl⟩
      simp [Level.heard, Level.opening, Level.type, Call.heard, heardValue, Value.elementType]

/-- Calls that succeed are heard as what mirrors them, after what has been heard before. -/
theorem Drafting.calls {l : Limits} {start : List UInt8} {ds : List Document} {draft : Draft} {w t : Writer}
    (h : w.Drafting l start ds draft) {calls : List Call} (hrun : (forM calls Call.write).run.run w = (.ok (), t)) :
    ∃ ds' draft', t.Drafting l start ds' draft' ∧
      ds'.flatMap heardDocument ++ draft'.heard =
        ds.flatMap heardDocument ++ draft.heard ++ mirror draft.places calls := by
  induction calls generalizing w ds draft with
  | nil =>
      cases hrun
      exact ⟨ds, draft, h, (List.append_nil _).symm⟩
  | cons c later ih =>
      rw [List.forM_cons] at hrun
      obtain ⟨_, s, hc, hlater⟩ := exists_of_run_bind hrun
      obtain ⟨ds₁, draft₁, htakes, hs⟩ := h.call hc
      obtain ⟨hheard, hplaces⟩ := htakes.heard_eq
      obtain ⟨ds₂, draft₂, ht, hmirror⟩ := ih hs hlater
      refine ⟨ds₂, draft₂, ht, ?_⟩
      rw [hmirror, hheard, hplaces, mirror, List.append_assoc]

/-- What is written by calls that all succeed and leave no container open is walked through to its end, where the
position is that of the writer; and what is heard is what mirrors the calls. -/
theorem walks_mirror (size : Int32) (nesting : Nat) (sink : Sink) (calls : List Call) (source : Source) (serial : Nat)
    {w : Writer} (hlimits : (Limits.ofWord size nesting).fault? = none) (hsink : sink.refusal = none)
    (hcalls : (forM calls Call.write).run.run (.ofSink sink (.ofWord size nesting)) = (.ok (), w))
    (hframes : w.frames = []) (hcontent : w.sink.received.toList = sink.received.toList ++ source.content)
    (hending : source.ending = .ends) :
    ∃ r r', Walks (.ofSource source (.ofWord size nesting) serial) (mirror [] calls) r ∧
      Reader.isAtEnd.run.run r = (.ok true, r') ∧ r'.position = w.position := by
  obtain ⟨ds, draft, hdrafting, hmirror⟩ := (drafting_ofSink hsink (.ofWord size nesting)).calls hcalls
  have hnil : draft = [] := by
    rw [← List.length_eq_zero_iff, ← Draft.length_frames 0 draft, ← hdrafting.frames_eq, hframes, List.length_nil]
  subst hnil
  have hbytes : source.content = ds.flatMap document :=
    List.append_cancel_left (hcontent.symm.trans hdrafting.handed.received_eq)
  have hadmitted : ∀ d ∈ ds, Admits (.ofWord size nesting) 0 (.document d) :=
    hdrafting.handed.limits_eq ▸ hdrafting.handed.admitted
  obtain ⟨r, r', hwalks, hend, hposition⟩ :=
    exists_walks (Limits.ofWord_lt size nesting) hlimits hadmitted hbytes hending serial
  have hheard : mirror [] calls = ds.flatMap heardDocument := by
    simpa [Draft.heard, Draft.places] using hmirror.symm
  refine ⟨r, r', hheard ▸ hwalks, hend, ?_⟩
  rw [hposition, position, hdrafting.handed.flushed_eq, hdrafting.pending_eq]
  rfl

/-- Two documents, of which the first has a name twice, code with an empty scope in an array, and a NaN. -/
theorem walks_mirror_repeated :
    ∃ w r r', (forM [.startDocument, .writeName "a", .startArray, .writeScopedCode "f", .startDocument, .endDocument,
        .writeDouble ⟨0x7FF8000000000001⟩, .endArray, .writeName "a", .startDocument, .endDocument, .endDocument,
        .startDocument, .endDocument] Call.write).run.run (.ofSink default (.ofWord 64 4)) = (.ok (), w) ∧
      Walks (.ofSource (.ofBytes w.sink.received.toList 1 none true) (.ofWord 64 4) 0)
        [⟨.startDocument, ()⟩, ⟨.readType, .array⟩, ⟨.readName, "a"⟩, ⟨.startArray, ()⟩, ⟨.readType, .scopedCode⟩,
          ⟨.readName, "0"⟩, ⟨.readScopedCode, "f"⟩, ⟨.startDocument, ()⟩, ⟨.readType, .endOfDocument⟩,
          ⟨.endDocument, ()⟩, ⟨.readType, .double⟩, ⟨.readName, "1"⟩, ⟨.readDouble, ⟨0x7FF8000000000001⟩⟩,
          ⟨.readType, .endOfDocument⟩, ⟨.endArray, ()⟩, ⟨.readType, .document⟩, ⟨.readName, "a"⟩,
          ⟨.startDocument, ()⟩, ⟨.readType, .endOfDocument⟩, ⟨.endDocument, ()⟩, ⟨.readType, .endOfDocument⟩,
          ⟨.endDocument, ()⟩, ⟨.startDocument, ()⟩, ⟨.readType, .endOfDocument⟩, ⟨.endDocument, ()⟩] r ∧
      Reader.isAtEnd.run.run r = (.ok true, r') ∧ r'.position = w.position := by
  obtain ⟨w, hrun, hframes⟩ : ∃ w, (forM [.startDocument, .writeName "a", .startArray, .writeScopedCode "f",
      .startDocument, .endDocument, .writeDouble ⟨0x7FF8000000000001⟩, .endArray, .writeName "a", .startDocument,
      .endDocument, .endDocument, .startDocument, .endDocument] Call.write).run.run
        (.ofSink default (.ofWord 64 4)) = (.ok (), w) ∧ w.frames = [] :=
    ⟨_, run_eq_of_isOk (by decide +kernel), by decide +kernel⟩
  obtain ⟨hcontent, hending⟩ := Source.content_ofBytes w.sink.received.toList Nat.one_pos true
  obtain ⟨r, r', hwalks, hend, hposition⟩ := walks_mirror 64 4 default _ _ 0 (by decide) rfl hrun hframes
    hcontent.symm hending
  exact ⟨w, r, r', hrun, hwalks, hend, hposition⟩

end Writer

end Aggregation.Wire
