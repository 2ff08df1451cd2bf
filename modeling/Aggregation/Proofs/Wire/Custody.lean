import Aggregation.Proofs.Wire.Calls
import Aggregation.Proofs.Wire.Refusals

/-! Custody of a transport. A reader and a writer each hold a transport and give it up once: when they are closed, when
it is taken back, when an iteration over a reader comes to its end, or when they are dropped, whichever comes first.
Nothing that is done with them afterwards does anything. -/

namespace Aggregation.Wire

open Stepping

/-- What is done with something that holds a transport. -/
inductive Deed (δ : Type) where
  | use (usage : δ)
  | close
  /-- Takes the transport back. -/
  | release
  | drop

/-- What a deed tells. -/
inductive Outcome (ρ τ : Type) where
  | used (report : ρ)
  | closed
  | released (transport : Option τ)
  | dropped

/-- Something that holds a transport, and what can be done with it. -/
structure Holder (σ δ ρ τ κ : Type) where
  use : σ → δ → ρ × σ
  close : σ → σ
  release : σ → Option τ × σ
  /-- The transport, as long as it is held. -/
  transport? : σ → Option τ
  isClosed : σ → Prop
  /-- What has passed between the transport and its holder. -/
  traffic : σ → κ
  log : σ → List Log.Entry
  /-- The name of the side in the report of a release. -/
  side : String
  /-- A report after which the transport is not used any more. -/
  IsLast : ρ → Prop
  /-- A report by a closed holder. -/
  Refuses : ρ → Prop

namespace Holder

variable {σ δ ρ τ κ : Type} (h : Holder σ δ ρ τ κ)

/-- To drop a holder is to close it for the last time. -/
def act (s : σ) : Deed δ → Outcome ρ τ × σ
  | .use usage => (.used (h.use s usage).1, (h.use s usage).2)
  | .close => (.closed, h.close s)
  | .release => (.released (h.release s).1, (h.release s).2)
  | .drop => (.dropped, h.close s)

/-- The holder after deeds in turn. -/
def after (s : σ) (deeds : List (Deed δ)) : σ := deeds.foldl (fun s deed => (h.act s deed).2) s

/-- A deed comes to the end of the use of the transport. -/
def Ends : Outcome ρ τ → Prop
  | .used report => h.IsLast report
  | .closed | .released _ | .dropped => True

/-- A deed tells that there is nothing left to be done. -/
def Declines : Outcome ρ τ → Prop
  | .used report => h.Refuses report
  | .released transport => transport = none
  | .closed | .dropped => True

/-- The transport has been given up for good: whatever is done, it does not come back, nothing passes any more, nothing
is reported, the holder stays closed, and every deed is declined. -/
def Spent (s : σ) : Prop :=
  ∀ deeds, (h.transport? (h.after s deeds) = none ∧ h.isClosed (h.after s deeds)) ∧
    (h.traffic (h.after s deeds) = h.traffic s ∧ h.log (h.after s deeds) = h.log s) ∧
    ∀ deed, h.Declines (h.act (h.after s deeds) deed).1

/-- A deed gives up the transport that was held: it hands it back, or it lets it go and reports so. -/
def GivesUp (s : σ) (deed : Deed δ) : Prop :=
  (∃ transport, h.transport? s = some transport ∧ (h.act s deed).1 = .released (some transport)) ∨
    ∃ position, (h.log (h.act s deed).2).getLast? =
      some (Log.Event.transportReleased.entry [("side", h.side), ("position", position)])

/-- Among deeds there is one that gives up the transport. It is the first that comes to an end of its use; up to it the
transport is held, and from then on it is gone for good. -/
def GivesUpOnce (s : σ) (deeds : List (Deed δ)) : Prop :=
  ∃ before deed later, deeds = before ++ deed :: later ∧
    (∀ done next rest, before = done ++ next :: rest →
      (h.transport? (h.after s done)).isSome ∧ ¬h.Ends (h.act (h.after s done) next).1) ∧
    ((h.transport? (h.after s before)).isSome ∧ h.Ends (h.act (h.after s before) deed).1) ∧
    h.GivesUp (h.after s before) deed ∧ h.Spent (h.after s (before ++ [deed]))

/-- A holder keeps its transport while it is open, and nothing can be done with it once it is shut. -/
structure Custody (Open Shut : σ → Prop) : Prop where
  holds : ∀ {s}, Open s → (h.transport? s).isSome
  goes_on : ∀ {s} deed, Open s → ¬h.Ends (h.act s deed).1 → Open (h.act s deed).2
  ends : ∀ {s} deed, Open s → h.Ends (h.act s deed).1 → h.GivesUp s deed ∧ Shut (h.act s deed).2
  gone : ∀ {s}, Shut s → h.transport? s = none ∧ h.isClosed s
  declines : ∀ {s} deed, Shut s → h.Declines (h.act s deed).1
  stays : ∀ {s} deed, Shut s → Shut (h.act s deed).2 ∧ h.traffic (h.act s deed).2 = h.traffic s ∧
    h.log (h.act s deed).2 = h.log s

variable {h} {Open Shut : σ → Prop} {s : σ}

theorem Custody.after (hcustody : h.Custody Open Shut) (hs : Shut s) (deeds : List (Deed δ)) :
    Shut (h.after s deeds) ∧ h.traffic (h.after s deeds) = h.traffic s ∧ h.log (h.after s deeds) = h.log s := by
  induction deeds generalizing s with
  | nil => exact ⟨hs, rfl, rfl⟩
  | cons deed later ih =>
      obtain ⟨hshut, htraffic, hlog⟩ := hcustody.stays deed hs
      obtain ⟨hlater, htraffic', hlog'⟩ := ih hshut
      exact ⟨hlater, htraffic'.trans htraffic, hlog'.trans hlog⟩

theorem Custody.spent (hcustody : h.Custody Open Shut) (hs : Shut s) : h.Spent s := by
  intro deeds
  obtain ⟨hshut, hsame⟩ := hcustody.after hs deeds
  exact ⟨hcustody.gone hshut, hsame, fun deed => hcustody.declines deed hshut⟩

/-- Dropping a holder in the end makes sure that the transport is given up; what comes first has done it before. -/
theorem Custody.exists_deed (hcustody : h.Custody Open Shut) (hs : Open s) (deeds : List (Deed δ)) :
    h.GivesUpOnce s (deeds ++ [.drop]) := by
  induction deeds generalizing s with
  | nil =>
      obtain ⟨hgives, hshut⟩ := hcustody.ends .drop hs trivial
      exact ⟨[], .drop, [], rfl, by simp, ⟨hcustody.holds hs, trivial⟩, hgives, hcustody.spent hshut⟩
  | cons deed later ih =>
      by_cases hends : h.Ends (h.act s deed).1
      · obtain ⟨hgives, hshut⟩ := hcustody.ends deed hs hends
        exact ⟨[], deed, later ++ [.drop], rfl, by simp, ⟨hcustody.holds hs, hends⟩, hgives, hcustody.spent hshut⟩
      · obtain ⟨before, last, rest, hdeeds, hbefore, hlast⟩ := ih (hcustody.goes_on deed hs hends)
        refine ⟨deed :: before, last, rest, ?_, fun done next others heq => ?_, hlast⟩
        · rw [List.cons_append, hdeeds, List.cons_append]
        · cases done with
          | nil =>
              obtain ⟨rfl, -⟩ := List.cons.inj heq
              exact ⟨hcustody.holds hs, hends⟩
          | cons first done =>
              obtain ⟨rfl, hrest⟩ := List.cons.inj heq
              exact hbefore done next others hrest

end Holder

/-! ## Readers -/

/-- A reader and its bookmarks, and how far an iteration over it has come. -/
structure Owner where
  client : Client
  error : Option WireError := none
  isFinished : Bool := false

namespace Owner

/-- What an owner does with a reader that is not to be given up. -/
inductive Usage where
  | operate (operation : Operation)
  /-- Asks an iteration for the next document. -/
  | next

inductive Notice where
  | answered (report : Report)
  | given (document : Option Document)

/-- An iteration that gives nothing has come to its end or to its first error. -/
def Notice.IsLast : Notice → Prop
  | .given none => True
  | .given (some _) | .answered _ => False

/-- What fails, fails for being closed; an empty slot has no bookmark to return to, and an iteration gives nothing. -/
def Notice.Refuses : Notice → Prop
  | .answered (.called _ result) => result = .error .closed
  | .answered (.taken result) => result = .error .closed
  | .answered (.returned result) => ∀ given, result = some given → given = .error .closed
  | .answered .dropped => True
  | .given document => document = none

/-- An owner with another reader. -/
def withReader (o : Owner) (reader : Reader) : Owner := { o with client := { o.client with reader } }

def stream (o : Owner) : DocumentStream := ⟨o.client.reader, o.error, o.isFinished⟩

/-- An owner whose iteration has come to a stream. -/
def continuing (o : Owner) (s : DocumentStream) : Owner := ⟨{ o.client with reader := s.reader }, s.error, s.isFinished⟩

def use (o : Owner) : Usage → Notice × Owner
  | .operate operation =>
    (.answered (o.client.step operation).1.report, { o with client := (o.client.step operation).2 })
  | .next => (.given o.stream.next.1, o.continuing o.stream.next.2)

/-- An owner as the holder of a source. -/
def holder : Holder Owner Usage Notice Source ReplayBuffer where
  use := use
  close o := o.withReader o.client.reader.close
  release o := (o.client.reader.release.1, o.withReader o.client.reader.release.2)
  transport? o := o.client.reader.input.source
  isClosed o := o.client.reader.state = .closed
  traffic o := o.client.reader.input
  log o := o.client.reader.log
  side := "reader"
  IsLast := Notice.IsLast
  Refuses := Notice.Refuses

/-- A reader that is open, over which an iteration may go on. -/
structure Holds (opening : Opening) (o : Owner) : Prop where
  sound : o.client.Sound opening
  isFinished_eq : o.isFinished = false

/-- A reader that has given up its source, and everything it kept with it. -/
structure Gave (o : Owner) : Prop where
  state_eq : o.client.reader.state = .closed
  input_eq : o.client.reader.input.release = o.client.reader.input

end Owner

namespace Reader

variable {o : Opening} {pins : List Pin × Nat} {r : Reader}

theorem log_close (h : r.Over o pins) : ∃ position, r.close.log.getLast? =
    some (Log.Event.transportReleased.entry [("side", "reader"), ("position", position)]) := by
  refine ⟨toString r.position, ?_⟩
  rw [close, if_neg (by rw [h.window.isReleased_eq]; decide), List.getLast?_concat]

end Reader

/-- A step of an iteration gives a document, or it is the last one. -/
theorem DocumentStream.next_of_over {s : DocumentStream} {o : Opening} {pins : List Pin × Nat}
    (h : s.reader.Over o pins) (hfinished : s.isFinished = false) :
    (∃ d r, r.Over o pins ∧ s.next = (some d, { s with reader := r })) ∨
      ∃ r error, r.Over o pins ∧ s.next = (none, finish { s with reader := r } error) := by
  have hend := h.steady Reader.steady_isAtEnd
  rw [next, hfinished, if_neg (by decide)]
  rcases hatEnd : Reader.isAtEnd.run.run s.reader with ⟨e | _ | _, r⟩
  · rw [hatEnd] at hend
    exact .inr ⟨r, some e, hend, rfl⟩
  · rw [hatEnd] at hend
    have hread := hend.steady Reader.local_readDocument.steady
    dsimp only at hread ⊢
    rcases hdocument : Reader.readDocument.run.run r with ⟨e | d, r'⟩
    · rw [hdocument] at hread
      exact .inr ⟨r', some e, hread, rfl⟩
    · rw [hdocument] at hread
      exact .inl ⟨d, r', hread, rfl⟩
  · rw [hatEnd] at hend
    exact .inr ⟨r, none, hend, rfl⟩

namespace Owner

variable {opening : Opening} {o : Owner}

theorem Holds.over (h : o.Holds opening) : o.client.reader.Over opening o.client.reader.pinning := h.sound.reader_over

theorem Holds.isSome (h : o.Holds opening) : o.client.reader.input.source.isSome := by
  have hreleased := h.over.window.isReleased_eq
  rw [ReplayBuffer.isReleased] at hreleased
  rw [← Option.not_isNone, hreleased, Bool.not_false]

theorem gave_close (r : Reader) (o : Owner) : (o.withReader r.close).Gave := ⟨rfl, rfl⟩

theorem gave_release (r : Reader) (o : Owner) : (o.withReader r.release.2).Gave := ⟨rfl, rfl⟩

/-- A step of an iteration leaves the reader open, or it closes the reader and gives nothing any more. -/
theorem Holds.next (h : o.Holds opening) :
    (∃ d, (o.use .next).1 = .given (some d) ∧ (o.use .next).2.Holds opening) ∨
      (o.use .next).1 = .given none ∧ (o.use .next).2.Gave ∧ ∃ position, (o.use .next).2.client.reader.log.getLast? =
        some (Log.Event.transportReleased.entry [("side", "reader"), ("position", position)]) := by
  rcases DocumentStream.next_of_over (s := o.stream) h.over h.isFinished_eq with
    ⟨d, r, hover, hnext⟩ | ⟨r, error, hover, hnext⟩
  · refine .inl ⟨d, ?_, ?_, ?_⟩
    · rw [use, hnext]
    · rw [use, hnext]
      exact h.sound.of_over hover
    · rw [use, hnext]
      exact h.isFinished_eq
  · refine .inr ⟨?_, ?_, ?_⟩
    · rw [use, hnext]
    · rw [use, hnext]
      exact ⟨rfl, rfl⟩
    · rw [use, hnext]
      exact Reader.log_close hover

theorem Gave.source_eq (h : o.Gave) : o.client.reader.input.source = none := by
  rw [← h.input_eq]
  rfl

theorem Gave.isReleased_eq (h : o.Gave) : o.client.reader.input.isReleased = true := by
  rw [ReplayBuffer.isReleased, h.source_eq]
  rfl

theorem Gave.isClosed_eq (h : o.Gave) : o.client.reader.isClosed = true := by
  rw [Reader.isClosed, h.state_eq]
  rfl

/-- A reader without its source has no pins left that the bookmark could remove. -/
theorem Gave.dropBookmark (h : o.Gave) (b : Bookmark) : o.client.reader.dropBookmark b = o.client.reader := by
  rw [Reader.dropBookmark]
  split
  · have hunpin : o.client.reader.input.unpin b.pin.serial = o.client.reader.input := by
      rw [← h.input_eq]
      rfl
    rw [hunpin]
  · rfl

/-- From one reader without its source to another, nothing happens. -/
structure Rests (o o' : Owner) : Prop where
  state_eq : o'.client.reader.state = .closed
  input_eq : o'.client.reader.input = o.client.reader.input
  log_eq : o'.client.reader.log = o.client.reader.log

theorem Gave.rests (h : o.Gave) {o' : Owner} (hreader : o'.client.reader = o.client.reader) : o.Rests o' := by
  refine ⟨?_, ?_, ?_⟩
  · rw [hreader, h.state_eq]
  · rw [hreader]
  · rw [hreader]

theorem Gave.rests_close (h : o.Gave) {o' : Owner} (hreader : o'.client.reader = o.client.reader.close) :
    o.Rests o' := by
  refine ⟨?_, ?_, ?_⟩
  · rw [hreader]
    rfl
  · rw [hreader]
    exact h.input_eq
  · rw [hreader]
    exact if_pos h.isReleased_eq

theorem Rests.gave {o' : Owner} (h : o.Rests o') (hgave : o.Gave) : o'.Gave :=
  ⟨h.state_eq, by rw [h.input_eq, hgave.input_eq]⟩

/-- Nothing that is asked of a reader without its source does anything to it, and all that can fail fails. -/
theorem Gave.step (h : o.Gave) (operation : Operation) :
    (o.client.step operation).2.reader = o.client.reader ∧
      Notice.Refuses (.answered (o.client.step operation).1.report) := by
  cases operation with
  | call call =>
      rw [Client.step_call, Reader.barred_read call _ h.isClosed_eq]
      exact ⟨rfl, rfl⟩
  | take slot =>
      rw [Client.step, Reader.barred_bookmark _ h.isClosed_eq]
      exact ⟨rfl, rfl⟩
  | returnTo slot =>
      rcases hheld : o.client.held slot with _ | b
      · rw [Client.step_returnTo_none hheld]
        refine ⟨rfl, ?_⟩
        intro given hgiven
        cases hgiven
      · rw [Client.step_returnTo_some hheld, Reader.barred_returnTo b _ h.isClosed_eq]
        refine ⟨rfl, ?_⟩
        intro given hgiven
        cases hgiven
        rfl
  | drop slot =>
      refine ⟨?_, trivial⟩
      rw [Client.step, Client.drop]
      rcases o.client.held slot with _ | b
      · rfl
      · exact h.dropBookmark b

/-- An iteration over a reader without its source gives nothing. -/
theorem Gave.next (h : o.Gave) : (o.use .next).1 = .given none ∧ o.Rests (o.use .next).2 := by
  have hend : Reader.isAtEnd.run.run o.stream.reader = (.error .closed, o.client.reader) :=
    Reader.barred_read .isAtEnd _ h.isClosed_eq
  cases hfinished : o.isFinished with
  | true =>
      have hnext : o.stream.next = (none, o.stream) := if_pos hfinished
      rw [use, hnext]
      exact ⟨rfl, h.rests rfl⟩
  | false =>
      have hnext : o.stream.next = (none, o.stream.finish (some .closed)) := by
        rw [DocumentStream.next, hend]
        exact if_neg (by rw [stream, hfinished]; exact Bool.false_ne_true)
      rw [use, hnext]
      exact ⟨rfl, h.rests_close rfl⟩

/-- What an owner does while its reader is open leaves it open, or gives up the source. -/
theorem Holds.act (h : o.Holds opening) (deed : Deed Usage) :
    (¬holder.Ends (holder.act o deed).1 ∧ (holder.act o deed).2.Holds opening) ∨
      holder.Ends (holder.act o deed).1 ∧ holder.GivesUp o deed ∧ (holder.act o deed).2.Gave := by
  have hreport := Reader.log_close h.over
  cases deed with
  | use usage =>
      cases usage with
      | operate operation => exact .inl ⟨id, h.sound.step operation, h.isFinished_eq⟩
      | next =>
          obtain ⟨d, hgiven, hholds⟩ | ⟨hnone, hgave, hlog⟩ := h.next
          · refine .inl ⟨?_, hholds⟩
            show ¬Notice.IsLast (o.use .next).1
            rw [hgiven]
            exact id
          · refine .inr ⟨?_, .inr hlog, hgave⟩
            show Notice.IsLast (o.use .next).1
            rw [hnone]
            trivial
  | close => exact .inr ⟨trivial, .inr hreport, gave_close _ o⟩
  | release =>
      obtain ⟨source, hsource⟩ := Option.isSome_iff_exists.1 h.isSome
      exact .inr ⟨trivial, .inl ⟨source, hsource, congrArg Outcome.released hsource⟩, gave_release _ o⟩
  | drop => exact .inr ⟨trivial, .inr hreport, gave_close _ o⟩

/-- What an owner does without the source is declined, and does nothing. -/
theorem Gave.act (h : o.Gave) (deed : Deed Usage) :
    holder.Declines (holder.act o deed).1 ∧ o.Rests (holder.act o deed).2 := by
  cases deed with
  | use usage =>
      cases usage with
      | operate operation => exact ⟨(h.step operation).2, h.rests (h.step operation).1⟩
      | next =>
          obtain ⟨hnone, hrests⟩ := h.next
          refine ⟨?_, hrests⟩
          show Notice.Refuses (o.use .next).1
          rw [hnone]
          rfl
  | close => exact ⟨trivial, h.rests_close rfl⟩
  | release => exact ⟨h.source_eq, rfl, h.input_eq, rfl⟩
  | drop => exact ⟨trivial, h.rests_close rfl⟩

theorem custody (opening : Opening) : holder.Custody (Holds opening) Gave where
  holds h := h.isSome
  goes_on deed h hends := (h.act deed).elim And.right fun hgives => absurd hgives.1 hends
  ends deed h hends := (h.act deed).elim (fun hgoes => absurd hends hgoes.1) And.right
  gone h := ⟨h.source_eq, h.state_eq⟩
  declines deed h := (h.act deed).1
  stays deed h := ⟨(h.act deed).2.gave h, (h.act deed).2.input_eq, (h.act deed).2.log_eq⟩

end Owner

/-! ## Writers -/

namespace Writer

open Write

section

variable {α : Type} {x : Write α}

/-- A step that does not give up the sink. -/
abbrev Retains (x : Write α) : Prop := Keeps Writer.isReleased x

/-- A check that may fail, and what follows it. -/
theorem retains_check {c : Prop} [Decidable c] {x : Write Unit} {k : Unit → Write α} (hx : Retains x)
    (hk : Retains (k ())) : Retains (if c then x >>= k else k ()) :=
  keeps_ite (hx.bind fun _ => hk) hk

theorem retains_refuse (operation : String) : Retains (refuse operation : Write α) :=
  keeps_get_bind fun w => keeps_throw (WireError.invalidState operation w.state.label) w

theorem retains_ensureOpen : Retains ensureOpen :=
  keeps_get_bind fun w => keeps_ite (keeps_throw _) (keeps_pure ()) w

theorem retains_get_bind {f : Writer → Write α} (hf : ∀ w, Retains (f w)) : Retains (get >>= f) :=
  keeps_get_bind fun w => hf w w

theorem retains_put (bytes : List UInt8) : Retains (put bytes) := keeps_modify fun _ => rfl

theorem retains_refuseNul (text : String) : Retains (refuseNul text) := keeps_ite (keeps_throw _) (keeps_pure ())

theorem retains_takeName (operation : String) : Retains (takeName operation) := by
  refine keeps_get_bind fun w => ?_
  cases w.frames with
  | nil => exact retains_refuse operation w
  | cons frame frames =>
      dsimp only
      split
      · rfl
      · cases w.pendingName <;> rfl

theorem retains_beginValue (operation : String) (type : ElementType) : Retains (beginValue operation type) := by
  refine retains_ensureOpen.bind fun _ => retains_get_bind fun w => retains_check (retains_refuse _) ?_
  exact (retains_takeName operation).bind fun name => (retains_put _).bind fun _ => retains_put _

theorem retains_flush : Retains flush := by
  refine keeps_get_bind fun w => ?_
  rcases w.sink.write w.pending with ⟨message | _, sink⟩ <;> rfl

theorem retains_endValue : Retains endValue := by
  refine retains_get_bind fun w => ?_
  cases w.frames with
  | nil => exact retains_flush.bind fun _ => keeps_modify fun _ => rfl
  | cons frame frames => exact keeps_modify fun _ => rfl

theorem retains_openContainer (kind : FrameKind) : Retains (openContainer kind) := by
  refine retains_get_bind fun w => retains_check (keeps_throw _) ?_
  exact (retains_put _).bind fun _ => keeps_modify fun _ => rfl

theorem retains_closeContainer : Retains closeContainer := by
  refine keeps_get_bind fun w => ?_
  cases w.frames with
  | nil => exact retains_refuse _ w
  | cons frame frames =>
      dsimp only
      split <;> rfl

theorem retains_writeScalar (operation : String) (type : ElementType) {payload : Write Unit}
    (hpayload : Retains payload) : Retains (writeScalar operation type payload) :=
  (retains_beginValue operation type).bind fun _ => hpayload.bind fun _ => retains_endValue

/-- No call gives up the sink, whether it succeeds or not. -/
theorem retains_write (call : Call) : Retains call.write := by
  have henter (kind : FrameKind) (state : WriterState) : Retains (do
      openContainer kind
      modify fun w => { w with state }) :=
    (retains_openContainer kind).bind fun _ => keeps_modify fun _ => rfl
  have hclose : Retains (discard closeContainer) := by
    rw [discard_eq_bind]
    exact retains_closeContainer.bind fun _ => keeps_pure ()
  cases call with
  | writeName name =>
      refine retains_ensureOpen.bind fun _ => retains_get_bind fun w => retains_check (retains_refuse _) ?_
      exact (retains_refuseNul name).bind fun _ => keeps_modify fun _ => rfl
  | startDocument =>
      refine retains_ensureOpen.bind fun _ => retains_get_bind fun w => ?_
      split
      · exact henter _ _
      · exact henter _ _
      · exact henter _ _
      · exact (retains_beginValue _ _).bind fun _ => henter _ _
      · exact (retains_refuse _).bind fun _ => henter _ _
  | endDocument =>
      refine retains_ensureOpen.bind fun _ => retains_get_bind fun w => ?_
      have hleave : Retains (do
          if w.state ≠ .name then throw (.prematureEnd "write_end_document" .nameWithoutValue)
          put [0]
          let closed ← closeContainer
          if closed = .scopeDocument then discard closeContainer
          endValue) := by
        refine retains_check (keeps_throw _) ((retains_put _).bind fun _ => retains_closeContainer.bind fun closed => ?_)
        exact keeps_ite (hclose.bind fun _ => retains_endValue) retains_endValue
      dsimp only
      split
      · exact hleave
      · exact hleave
      · exact (keeps_throw _).bind fun _ => hleave
  | startArray => exact (retains_beginValue _ _).bind fun _ => henter _ _
  | endArray =>
      refine retains_ensureOpen.bind fun _ => retains_get_bind fun w => retains_check (keeps_throw _) ?_
      exact (retains_put _).bind fun _ => hclose.bind fun _ => retains_endValue
  | writeBinary subtype bytes => exact retains_writeScalar _ _ (keeps_ite (retains_put _) (retains_put _))
  | writeUndefined | writeNull | writeMinKey | writeMaxKey => exact retains_writeScalar _ _ (keeps_pure ())
  | writeRegularExpression pattern options =>
      refine retains_writeScalar _ _ ((retains_refuseNul pattern).bind fun _ => ?_)
      exact (retains_put _).bind fun _ => (retains_refuseNul options).bind fun _ => retains_put _
  | writeDbPointer collection id => exact retains_writeScalar _ _ ((retains_put _).bind fun _ => retains_put _)
  | writeScopedCode code =>
      refine (retains_beginValue _ _).bind fun _ => (retains_openContainer _).bind fun _ => ?_
      exact (retains_put _).bind fun _ => keeps_modify fun _ => rfl
  | _ => exact retains_writeScalar _ _ (retains_put _)

/-- A call of a closed writer is refused before anything is done. -/
theorem barred_write (call : Call) {w : Writer} (h : w.isClosed = true) : call.write.run.run w = (.error .closed, w) := by
  have hopen : ensureOpen.run.run w = (.error .closed, w) := by
    rw [ensureOpen, run_bind_ok (run_get w), if_pos h]
    rfl
  have hbegin (operation : String) (type : ElementType) :
      (beginValue operation type).run.run w = (.error .closed, w) := run_bind_error hopen
  cases call with
  | writeName | startDocument | endDocument | endArray => exact run_bind_error hopen
  | _ => exact run_bind_error (hbegin _ _)

end

/-- A writer as the holder of a sink. -/
def holder : Holder Writer Call (Except WireError Unit) Sink (Sink × Nat) where
  use w call := call.write.run.run w
  close := close
  release := release
  transport? w := if w.isReleased then none else some w.sink
  isClosed w := w.state = .closed
  traffic w := (w.sink, w.flushed)
  log := log
  side := "writer"
  IsLast _ := False
  Refuses result := result = .error .closed

/-- A writer that has given up its sink. -/
structure Gave (w : Writer) : Prop where
  state_eq : w.state = .closed
  isReleased_eq : w.isReleased = true

variable {w : Writer}

theorem gave_close (w : Writer) : w.close.Gave := ⟨rfl, rfl⟩

theorem Gave.log_close (h : w.Gave) : w.close.log = w.log := if_pos h.isReleased_eq

theorem log_close (h : w.isReleased = false) : ∃ position, w.close.log.getLast? =
    some (Log.Event.transportReleased.entry [("side", "writer"), ("position", position)]) := by
  refine ⟨toString w.flushed, ?_⟩
  rw [close, if_neg (by rw [h]; exact Bool.false_ne_true), List.getLast?_concat]

/-- What is done with a writer that has its sink leaves it the sink, or gives it up. -/
theorem act_of_held (h : w.isReleased = false) (deed : Deed Call) :
    (¬holder.Ends (holder.act w deed).1 ∧ (holder.act w deed).2.isReleased = false) ∨
      holder.Ends (holder.act w deed).1 ∧ holder.GivesUp w deed ∧ (holder.act w deed).2.Gave := by
  have hsink : (if w.isReleased then none else some w.sink) = some w.sink := if_neg (by rw [h]; exact Bool.false_ne_true)
  cases deed with
  | use call => exact .inl ⟨id, (retains_write call w).trans h⟩
  | close => exact .inr ⟨trivial, .inr (log_close h), gave_close w⟩
  | release => exact .inr ⟨trivial, .inl ⟨w.sink, hsink, congrArg Outcome.released hsink⟩, rfl, rfl⟩
  | drop => exact .inr ⟨trivial, .inr (log_close h), gave_close w⟩

/-- What is done with a writer that has given up its sink is declined, and does nothing. -/
theorem Gave.act (h : w.Gave) (deed : Deed Call) :
    holder.Declines (holder.act w deed).1 ∧ (holder.act w deed).2.Gave ∧
      holder.traffic (holder.act w deed).2 = holder.traffic w ∧ holder.log (holder.act w deed).2 = holder.log w := by
  cases deed with
  | use call =>
      have hclosed : w.isClosed = true := by rw [isClosed, h.isReleased_eq, Bool.or_true]
      have hrun : holder.act w (.use call) = (.used (.error .closed), w) := by
        show (Outcome.used (call.write.run.run w).1, (call.write.run.run w).2) = _
        rw [barred_write call hclosed]
      rw [hrun]
      exact ⟨rfl, h, rfl, rfl⟩
  | close => exact ⟨trivial, gave_close w, rfl, h.log_close⟩
  | release => exact ⟨if_pos h.isReleased_eq, ⟨rfl, rfl⟩, rfl, rfl⟩
  | drop => exact ⟨trivial, gave_close w, rfl, h.log_close⟩

theorem custody : holder.Custody (fun w => w.isReleased = false) Gave where
  holds h := by
    show (if _ then none else some _).isSome
    rw [h]
    rfl
  goes_on deed h hends := (act_of_held h deed).elim And.right fun hgives => absurd hgives.1 hends
  ends deed h hends := (act_of_held h deed).elim (fun hgoes => absurd hends hgoes.1) And.right
  gone h := ⟨if_pos h.isReleased_eq, h.state_eq⟩
  declines deed h := (h.act deed).1
  stays deed h := (h.act deed).2

end Writer

/-- Whatever is done with a reader, its bookmarks and an iteration over it, and whatever is done with a writer: once it
has been dropped, the transport has been given up exactly once, by the first thing that comes to an end of its use, and
nothing has been done with it since. -/
theorem transport_givenUp_once (source : Source) (sink : Sink) (limits : Limits) (serial : Nat)
    {foreign : Nat → Option Bookmark} (hforeign : ∀ slot b, foreign slot = some b → b.reader ≠ serial) :
    (∀ deeds, Owner.holder.GivesUpOnce { client := .ofSource source limits serial foreign } (deeds ++ [.drop])) ∧
      ∀ deeds, Writer.holder.GivesUpOnce (.ofSink sink limits) (deeds ++ [.drop]) := by
  have hsound := Client.sound_ofSource source limits serial hforeign
  exact ⟨fun deeds => (Owner.custody _).exists_deed ⟨hsound, rfl⟩ deeds,
    fun deeds => Writer.custody.exists_deed rfl deeds⟩

/-- An iteration comes to the end of the bytes, and the reader is closed and asked again; a writer fails, is closed and
is to give the sink back. Another reader's bookmark lies in a slot. -/
theorem transport_givenUp_once_iterated :
    ∃ (foreign : Nat → Option Bookmark) (o : Owner) (deeds : List (Deed Owner.Usage))
      (deeds' : List (Deed Writer.Call)),
      o = { client := .ofSource (.ofBytes [5, 0, 0, 0, 0]) {} 0 foreign } ∧
      deeds = [.use (.operate (.returnTo 0)), .use .next, .use .next, .close, .use (.operate (.take 1)), .use .next] ∧
      deeds' = [.use .startDocument, .use (.writeBoolean true), .close, .release] ∧
      ((foreign 0).isSome = true ∧ ∀ slot b, foreign slot = some b → b.reader ≠ 0) ∧
      ((Owner.holder.transport? (Owner.holder.after o (deeds.take 2))).isSome = true ∧
        (Owner.holder.transport? (Owner.holder.after o (deeds.take 3))).isSome = false) ∧
      Owner.holder.GivesUpOnce o (deeds ++ [.drop]) ∧ Writer.holder.GivesUpOnce (.ofSink {}) (deeds' ++ [.drop]) := by
  have hforeign : ∀ slot b, (fun slot => if slot = 0 then some (⟨3, ⟨0, 4⟩, .type, none, none, []⟩ : Bookmark) else none)
      slot = some b → b.reader ≠ 0 := by
    intro slot b h
    dsimp only at h
    split at h
    · cases h
      decide
    · cases h
  obtain ⟨hreader, hwriter⟩ := transport_givenUp_once (.ofBytes [5, 0, 0, 0, 0]) {} {} 0 hforeign
  exact ⟨_, _, _, _, rfl, rfl, rfl, ⟨rfl, hforeign⟩, by decide +kernel, hreader _, hwriter _⟩

end Aggregation.Wire
