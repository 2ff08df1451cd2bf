import Aggregation.Proofs.Wire.Calls

/-! Writers whose document is lost. After a call that fails, a document may be in a state from which it is never
completed: the writer is closed, or a value has been begun and its name is gone, or the document is too large already.
Whatever is done then, the sink gets nothing more. -/

namespace Aggregation.Wire.Writer

open Stepping Layout Write

/-- The outermost container begins where the document does. -/
def Rooted : List OpenFrame → Prop
  | [] => True
  | [frame] => frame.start = 0
  | _ :: frame :: frames => Rooted (frame :: frames)

/-- The document is larger than the limit before it is complete. -/
structure Overgrown (w : Writer) : Prop where
  positive : 0 ≤ w.limits.maxDocumentSize
  large : w.limits.maxDocumentSize < w.pending.size
  rooted : Rooted w.frames
  begun : w.state ≠ .initial ∧ w.state ≠ .done

/-- Nothing is done any more: the writer is closed, or it expects a value and there is no name for it. -/
def Stuck (w : Writer) : Prop := w.isClosed = true ∨ w.state = .value ∧ w.named? = none

/-- Nothing more is handed over. -/
inductive Lost (w : Writer) : Prop
  | stuck (h : w.Stuck)
  | overgrown (h : w.Overgrown)

section

variable {w : Writer}

theorem Stuck.not_begins (h : w.Stuck) {type : ElementType} {t : Writer} : ¬w.Begins type t := by
  intro hbegins
  rcases h with hclosed | ⟨-, hnamed⟩
  · rw [hbegins.isClosed_eq] at hclosed
    cases hclosed
  · obtain ⟨name, s, hname, -⟩ := hbegins.named
    rw [hnamed] at hname
    cases hname

theorem Stuck.state_eq (h : w.Stuck) (hopen : w.isClosed = false) : w.state = .value ∧ w.named? = none := by
  rcases h with hclosed | hvalue
  · rw [hopen] at hclosed
    cases hclosed
  · exact hvalue

/-- The items of an array have names. -/
theorem named?_ne_none (h : w.frames.head?.map OpenFrame.kind = some .array) : w.named? ≠ none := by
  rw [named?]
  cases hframes : w.frames with
  | nil =>
      rw [hframes] at h
      cases h
  | cons frame frames =>
      rw [hframes] at h
      dsimp only
      rw [if_pos (Option.some.inj h)]
      exact Option.some_ne_none _

/-- A writer that is stuck refuses every call, and stays as it is. -/
theorem Stuck.ensures_write (h : w.Stuck) (c : Call) :
    Ensures (· = w) c.write (fun _ _ => False) (fun _ t => t = w) := by
  have hself : ∀ e : WireError, (fun _ t => t = w) e w := fun _ => rfl
  have hstate (hopen : w.isClosed = false) {state : WriterState} (hne : state ≠ .value) : w.state ≠ state := by
    rw [(h.state_eq hopen).1]
    exact hne.symm
  have hbegin (operation type) {f : Unit → Write Unit} :
      Ensures (· = w) (beginValue operation type >>= f) (fun _ _ => False) (fun _ t => t = w) :=
    (ensures_beginValue (E := fun _ t => t = w) hself operation type).bind fun _ _ hbegins =>
      absurd hbegins h.not_begins
  cases c with
  | writeName name => exact ensures_writeName_of hself fun hopen hname => absurd hname (hstate hopen nofun)
  | startDocument =>
      apply ensures_startDocument_of (E := fun _ t => t = w) hself
      · intro hopen hstart
        rcases hstart with hstart | hstart
        · exact absurd hstart (hstate hopen nofun)
        · exact absurd hstart (hstate hopen nofun)
      · exact fun hopen hscope => absurd hscope (hstate hopen nofun)
      · exact fun _ hbegins => absurd hbegins h.not_begins
  | endDocument => exact ensures_endDocument_of hself fun hopen _ hname => absurd hname (hstate hopen nofun)
  | endArray => exact ensures_endArray_of hself fun hopen hkind => absurd (h.state_eq hopen).2 (named?_ne_none hkind)
  | _ => exact hbegin _ _

end

/-! ## Documents that are too large -/

/-- The document is too large, and the sink is as it was. -/
def Swells (w t : Writer) : Prop := t.Overgrown ∧ t.sink = w.sink

/-- Beside that a container is open. -/
def Swollen (w t : Writer) : Prop := w.Swells t ∧ t.frames ≠ []

/-- A step leads from such documents to such documents. If it fails, no container may be open any more. -/
abbrev Swelling {α : Type} (w : Writer) (x : Write α) : Prop :=
  Ensures w.Swollen x (fun _ => w.Swollen) (fun _ => w.Swells)

theorem size_patch (bytes : Array UInt8) (start : Nat) (new : List UInt8) :
    (patch bytes start new).size = bytes.size := by
  induction new generalizing bytes start with
  | nil => rfl
  | cons b new ih => rw [patch, ih, Array.size_setIfInBounds]

theorem rooted_cons {frame : OpenFrame} {frames : List OpenFrame} (h : frames ≠ []) :
    Rooted (frame :: frames) ↔ Rooted frames := by
  cases frames with
  | nil => exact absurd rfl h
  | cons outer frames => rfl

theorem rooted_tail {frame : OpenFrame} {frames : List OpenFrame} (h : Rooted (frame :: frames)) : Rooted frames := by
  cases frames with
  | nil => trivial
  | cons outer frames => exact h

theorem rooted_of_suffix {frames later : List OpenFrame} (hsuffix : later <:+ frames) (h : Rooted frames) :
    Rooted later := by
  obtain ⟨before, rfl⟩ := hsuffix
  induction before with
  | nil => exact h
  | cons frame before ih => exact ih (rooted_tail h)

section

variable {w s t : Writer}

theorem Swells.append (h : w.Swells t) (bytes : List UInt8) : w.Swells (t.append bytes) := by
  obtain ⟨⟨hpositive, hlarge, hrooted, hbegun⟩, hsink⟩ := h
  refine ⟨⟨hpositive, ?_, hrooted, hbegun⟩, hsink⟩
  have hsize : (t.append bytes).pending.size = t.pending.size + bytes.length := by
    rw [← Array.length_toList, Writer.append, Array.appendList_eq_append, Array.toList_appendList, List.length_append,
      Array.length_toList]
  rw [hsize, append_limits]
  omega

/-- Beginning a value needs a container and opens none. -/
theorem Overgrown.begins {type : ElementType} (h : w.Overgrown) (hbegins : w.Begins type t) :
    w.Swollen t := by
  obtain ⟨name, s, hnamed, rfl⟩ := hbegins.named
  suffices hs : w.Swollen s from ⟨hs.1.append _, hs.2⟩
  obtain ⟨hpositive, hlarge, hrooted, hbegun⟩ := h
  rw [named?] at hnamed
  split at hnamed
  · cases hnamed
  · next frame frames hframes =>
      rw [hframes] at hrooted
      split at hnamed
      · cases hnamed
        refine ⟨⟨⟨hpositive, hlarge, ?_, hbegun⟩, rfl⟩, List.cons_ne_nil _ _⟩
        cases frames <;> exact hrooted
      · obtain ⟨given, -, hgiven⟩ := Option.map_eq_some_iff.1 hnamed
        cases hgiven
        refine ⟨⟨⟨hpositive, hlarge, ?_, hbegun⟩, rfl⟩, ?_⟩
        · rw [hframes]
          exact hrooted
        · rw [hframes]
          exact List.cons_ne_nil _ _

theorem ensures_beginValue_swells (h : w.Overgrown) (operation : String) (type : ElementType) :
    Ensures (· = w) (beginValue operation type) (fun _ => w.Swollen) (fun _ => w.Swells) :=
  (ensures_beginValue (fun _ => ⟨h, rfl⟩) operation type).mono (fun _ ht => ht) fun _ _ hbegins => h.begins hbegins

theorem swelling_openContainer (kind : FrameKind) : w.Swelling (openContainer kind) := by
  apply ensures_openContainer
  · intro t ht _ _
    exact ht.1
  · rintro t ⟨ht, hne⟩
    obtain ⟨⟨hpositive, hlarge, hrooted, hbegun⟩, hsink⟩ := ht.append [0, 0, 0, 0]
    exact ⟨⟨⟨hpositive, hlarge, (rooted_cons hne).2 hrooted, hbegun⟩, hsink⟩, List.cons_ne_nil _ _⟩

/-- The outermost container is too large to be closed. -/
theorem swelling_closeContainer : w.Swelling closeContainer := by
  apply ensures_get_bind
  rintro s ⟨⟨⟨hpositive, hlarge, hrooted, hbegun⟩, hsink⟩, hne⟩
  cases hframes : s.frames with
  | nil => exact absurd hframes hne
  | cons frame frames =>
      rw [hframes] at hrooted
      dsimp only
      apply ensures_ite
      · intro _
        apply ensures_set_bind
        apply ensures_throw
        rintro t rfl
        exact ⟨⟨hpositive, hlarge, rooted_tail hrooted, hbegun⟩, hsink⟩
      · intro hfits
        apply ensures_set_bind
        apply ensures_pure
        rintro t rfl
        refine ⟨⟨⟨hpositive, ?_, rooted_tail hrooted, hbegun⟩, hsink⟩, ?_⟩
        · rw [size_patch]
          exact hlarge
        · rintro rfl
          apply hfits
          rw [hrooted, Nat.sub_zero]
          exact ⟨hpositive, hlarge⟩

theorem ensures_endValue_swells :
    Ensures w.Swollen endValue (fun _ => w.Swells) (fun _ => w.Swells) := by
  apply ensures_get_bind
  rintro s ⟨⟨⟨hpositive, hlarge, hrooted, hbegun⟩, hsink⟩, hne⟩
  cases hframes : s.frames with
  | nil => exact absurd hframes hne
  | cons frame frames =>
      apply ensures_modify
      rintro t rfl
      refine ⟨⟨hpositive, hlarge, hrooted, ?_⟩, hsink⟩
      dsimp only
      split <;> exact ⟨nofun, nofun⟩

theorem ensures_state_swells {state : WriterState} (hstate : state ≠ .initial ∧ state ≠ .done) :
    Ensures w.Swollen (modify fun t => { t with state } : Write Unit) (fun _ => w.Swells)
      (fun _ => w.Swells) := by
  apply ensures_modify
  rintro t ⟨⟨⟨hpositive, hlarge, hrooted, -⟩, hsink⟩, -⟩
  exact ⟨⟨hpositive, hlarge, hrooted, hstate⟩, hsink⟩

theorem swelling_put (bytes : List UInt8) : w.Swelling (put bytes) :=
  ensures_put fun _ ht => ⟨ht.1.append bytes, ht.2⟩

theorem ensures_writeScalar_swells (h : w.Overgrown) (operation : String) (type : ElementType) {payload : Write Unit}
    (hpayload : w.Swelling payload) :
    Ensures (· = w) (writeScalar operation type payload) (fun _ => w.Swells) (fun _ => w.Swells) :=
  (ensures_beginValue_swells h operation type).bind fun _ => hpayload.bind fun _ => ensures_endValue_swells

theorem swelling_puts {payload : Write Unit} {bytes : List UInt8} (hp : Puts payload True bytes) : w.Swelling payload :=
  ensures_of_ok fun t ht => ⟨(), _, (hp t).run_eq trivial, ht.1.append bytes, ht.2⟩

theorem swelling_refuseNul (text : String) : w.Swelling (refuseNul text) :=
  (ensures_refuseNul fun _ _ ht => ht.1).mono (fun _ ht => ht) fun _ _ ht => ht.1

/-- Entering a container. -/
theorem ensures_enter_swells (kind : FrameKind) (state : WriterState) (hstate : state ≠ .initial ∧ state ≠ .done) :
    Ensures w.Swollen (do
      openContainer kind
      modify fun t => { t with state }) (fun _ => w.Swells) (fun _ => w.Swells) :=
  (swelling_openContainer kind).bind fun _ => ensures_state_swells hstate

theorem swelling_discard_closeContainer : w.Swelling (discard closeContainer) := by
  rw [discard_eq_bind]
  exact swelling_closeContainer.bind fun _ => ensures_pure fun _ ht => ht

theorem Overgrown.swollen (h : w.Overgrown) (hframes : w.frames ≠ []) : ∀ t, t = w → w.Swollen t := by
  rintro t rfl
  exact ⟨⟨h, rfl⟩, hframes⟩

theorem ensures_startDocument_swells (h : w.Overgrown) (hcoherent : w.Coherent) :
    Ensures (· = w) startDocument (fun _ => w.Swells) (fun _ => w.Swells) := by
  apply ensures_startDocument_of fun _ => ⟨h, rfl⟩
  · intro _ hstart
    rcases hstart with hstart | hstart
    · exact absurd hstart h.begun.1
    · exact absurd hstart h.begun.2
  · intro _ hscope
    have hframes : w.frames ≠ [] := ne_nil_of_kind (hcoherent.scope hscope)
    exact (ensures_enter_swells .scopeDocument .name ⟨nofun, nofun⟩).mono (h.swollen hframes) fun _ _ ht => ht
  · exact (ensures_enter_swells .document .name ⟨nofun, nofun⟩).mono (fun _ => h.begins) fun _ _ ht => ht

theorem ensures_endDocument_swells (h : w.Overgrown) :
    Ensures (· = w) endDocument (fun _ => w.Swells) (fun _ => w.Swells) := by
  apply ensures_endDocument_of fun _ => ⟨h, rfl⟩
  intro _ hkind _
  have hclose (kind : FrameKind) : Ensures w.Swollen (if kind = .scopeDocument then do
      discard closeContainer
      endValue
    else endValue) (fun _ => w.Swells) (fun _ => w.Swells) := by
    apply ensures_ite
    · exact fun _ => swelling_discard_closeContainer.bind fun _ => ensures_endValue_swells
    · exact fun _ => ensures_endValue_swells
  have hall := (swelling_put [0]).bind fun _ => swelling_closeContainer.bind hclose
  exact hall.mono (h.swollen (hkind.elim ne_nil_of_kind ne_nil_of_kind)) fun _ _ ht => ht

theorem ensures_endArray_swells (h : w.Overgrown) :
    Ensures (· = w) endArray (fun _ => w.Swells) (fun _ => w.Swells) := by
  apply ensures_endArray_of fun _ => ⟨h, rfl⟩
  intro _ hkind
  have hall := (swelling_put (w := w) [0]).bind fun _ =>
    swelling_discard_closeContainer.bind fun _ => ensures_endValue_swells
  exact hall.mono (h.swollen (ne_nil_of_kind hkind)) fun _ _ ht => ht

theorem Overgrown.ensures_write (h : w.Overgrown) (hcoherent : w.Coherent) (c : Call) :
    Ensures (· = w) c.write (fun _ => w.Swells) (fun _ => w.Swells) := by
  cases c with
  | writeName name =>
      exact ensures_writeName_of (fun _ => ⟨h, rfl⟩) fun _ _ => ⟨⟨h.positive, h.large, h.rooted, nofun, nofun⟩, rfl⟩
  | startDocument => exact ensures_startDocument_swells h hcoherent
  | endDocument => exact ensures_endDocument_swells h
  | startArray =>
      exact (ensures_beginValue_swells h _ _).bind fun _ => ensures_enter_swells .array .value ⟨nofun, nofun⟩
  | endArray => exact ensures_endArray_swells h
  | writeBinary subtype bytes =>
      exact ensures_writeScalar_swells h _ _ (swelling_puts (puts_putBinary subtype bytes))
  | writeUndefined | writeNull | writeMinKey | writeMaxKey =>
      exact ensures_writeScalar_swells h _ _ (swelling_puts puts_pure)
  | writeRegularExpression pattern options =>
      apply ensures_writeScalar_swells h
      exact (swelling_refuseNul pattern).bind fun _ => (swelling_put _).bind fun _ =>
        (swelling_refuseNul options).bind fun _ => swelling_put _
  | writeDbPointer collection id =>
      exact ensures_writeScalar_swells h _ _ (swelling_puts (puts_dbPointer collection id))
  | writeScopedCode code =>
      exact (ensures_beginValue_swells h _ _).bind fun _ => (swelling_openContainer _).bind fun _ =>
        (swelling_put _).bind fun _ => ensures_state_swells ⟨nofun, nofun⟩
  | _ => exact ensures_writeScalar_swells h _ _ (swelling_puts (puts_put _))

/-- What is lost stays lost, and the sink as it was. -/
theorem Lost.call (h : w.Lost) (hcoherent : w.Coherent) (c : Call) :
    (c.write.run.run w).2.Lost ∧ (c.write.run.run w).2.sink = w.sink := by
  cases h with
  | stuck hstuck =>
      obtain ⟨hok, herror⟩ := hstuck.ensures_write c w rfl
      rcases hrun : c.write.run.run w with ⟨e | _, t⟩
      · obtain rfl := herror e t hrun
        exact ⟨.stuck hstuck, rfl⟩
      · exact (hok () t hrun).elim
  | overgrown hlarge =>
      obtain ⟨hok, herror⟩ := hlarge.ensures_write hcoherent c w rfl
      rcases hrun : c.write.run.run w with ⟨e | _, t⟩
      · exact ⟨.overgrown (herror e t hrun).1, (herror e t hrun).2⟩
      · exact ⟨.overgrown (hok () t hrun).1, (hok () t hrun).2⟩

theorem lost_close (w : Writer) : w.close.Lost := .stuck (.inl rfl)

theorem lost_release (w : Writer) : w.release.2.Lost := .stuck (.inl rfl)

end

end Aggregation.Wire.Writer
