import Aggregation.Proofs.Wire.Refusals
import Aggregation.Proofs.Wire.StaleNames

/-! A value that is passed over instead of being read. Within a document nothing can be told afterwards but the type and
the name that are still held. Between documents the one reader has forgotten bytes and the other has not, which shows in
the position once the input is given up and at no other time. -/

namespace Aggregation.Wire

open Stepping

namespace Reader

/-- What can be seen of a reader beside the position once it is closed. -/
def Face.unplaced (f : Face) : Face := if f.state = .closed then { f with position := 0 } else f

/-- Two readers that have given up their sources and show the same but for the position. -/
structure Ended (r q : Reader) : Prop where
  left : r.input.isReleased = true
  right : q.input.isReleased = true
  state_eq : r.state = .closed
  face_eq : { r.face with position := 0 } = { q.face with position := 0 }

variable {r q : Reader}

theorem Ended.unplaced_eq (h : Ended r q) : r.face.unplaced = q.face.unplaced := by
  have hr : r.face.state = .closed := h.state_eq
  have hq : q.face.state = .closed := (congrArg Face.state h.face_eq).symm.trans hr
  rw [Face.unplaced, Face.unplaced, if_pos hr, if_pos hq, h.face_eq]

theorem isClosed_of_isReleased (h : r.input.isReleased = true) : r.isClosed = true := by
  rw [isClosed, h, Bool.or_true]

theorem ended_close (htype : r.currentType = q.currentType) (hname : r.currentName = q.currentName) :
    Ended r.close q.close where
  left := rfl
  right := rfl
  state_eq := rfl
  face_eq := by simp only [face, Reader.close, htype, hname]

theorem Ended.close (h : Ended r q) : Ended r.close q.close :=
  ended_close (congrArg Face.currentType h.face_eq) (congrArg Face.currentName h.face_eq)

theorem ended_release (h : { r.face with position := 0, state := .closed } =
    { q.face with position := 0, state := .closed }) : Ended r.release.2 q.release.2 :=
  ⟨rfl, rfl, rfl, h⟩

theorem Ended.release (h : Ended r q) : Ended r.release.2 q.release.2 :=
  ended_release (congrArg (fun f : Face => { f with state := .closed }) h.face_eq)

theorem Ended.of_peers (h : Ended r q) {r' q' : Reader} (hr : Peers r' r) (hq : Peers q' q) : Ended r' q' where
  left := hr.isReleased_eq.trans h.left
  right := hq.isReleased_eq.trans h.right
  state_eq := (congrArg Face.state hr.face_eq).trans h.state_eq
  face_eq := by rw [hr.face_eq, hq.face_eq, h.face_eq]

end Reader

/-- The slot that an operation has to do with. -/
def Operation.slot? : Operation → Option Nat
  | .call _ => none
  | .take slot | .returnTo slot | .drop slot => some slot

namespace Action

def slot? : Action → Option Nat
  | .operate operation => operation.slot?
  | _ => none

/-- An action has to do with bookmarks in certain slots alone. -/
def Within (kept : Set Nat) (action : Action) : Prop := ∀ slot, action.slot? = some slot → slot ∈ kept

/-- After an action the reader no longer has its source. -/
def GivesUp : Action → Prop
  | .close | .release => True
  | _ => False

end Action

namespace Client

variable {o : Opening} {kept : Set Nat} {c d : Client} {action : Action}

/-- Two clients whose readers have given up their sources, and that hold the same bookmarks in certain slots but for the
pins. -/
structure Ended (kept : Set Nat) (c d : Client) : Prop where
  readers : Reader.Ended c.reader d.reader
  held_eq : ∀ slot ∈ kept, (c.held slot).map Bookmark.view = (d.held slot).map Bookmark.view

theorem Ended.of_barred (h : Ended kept c d) {α : Type} {e : WireError} {x : Read α} (hx : Reader.Barred e x) :
    x.run.run c.reader = (.error e, c.reader) ∧ x.run.run d.reader = (.error e, d.reader) :=
  ⟨hx _ (Reader.isClosed_of_isReleased h.readers.left), hx _ (Reader.isClosed_of_isReleased h.readers.right)⟩

/-- Both clients hold a bookmark in a slot, or neither does. -/
theorem Ended.held_cases (h : Ended kept c d) {slot : Nat} (hslot : slot ∈ kept) :
    c.held slot = none ∧ d.held slot = none ∨ ∃ b b', c.held slot = some b ∧ d.held slot = some b' := by
  have hview := h.held_eq slot hslot
  generalize c.held slot = left, d.held slot = right at hview
  cases left <;> cases right
  · exact .inl ⟨rfl, rfl⟩
  · cases hview
  · cases hview
  · exact .inr ⟨_, _, rfl, rfl⟩

theorem Ended.drop (h : Ended kept c d) (slot : Nat) : Ended kept (c.drop slot) (d.drop slot) := by
  refine ⟨h.readers.of_peers (peers_drop c slot) (peers_drop d slot), fun slot' hslot' => ?_⟩
  rw [drop_held, drop_held, Function.update_apply, Function.update_apply]
  split
  · rfl
  · exact h.held_eq slot' hslot'

theorem Ended.step (h : Ended kept c d) {operation : Operation} (huses : Uses kept operation) :
    (Sight.operated (c.step operation).1).through Reader.Face.unplaced =
        (Sight.operated (d.step operation).1).through Reader.Face.unplaced ∧
      Ended kept (c.step operation).2 (d.step operation).2 := by
  cases operation with
  | call call =>
      obtain ⟨hc, hd⟩ := h.of_barred (Reader.barred_read call)
      rw [step_call, step_call, hc, hd, Sight.through, Sight.through, h.readers.unplaced_eq]
      exact ⟨rfl, h⟩
  | take slot =>
      obtain ⟨hc, hd⟩ := h.of_barred Reader.barred_bookmark
      rw [Client.step, Client.step, hc, hd]
      dsimp only
      rw [Sight.through, Sight.through, h.readers.unplaced_eq]
      exact ⟨rfl, h⟩
  | returnTo slot =>
      obtain ⟨hc, hd⟩ | ⟨b, b', hc, hd⟩ := h.held_cases huses
      · rw [step_returnTo_none hc, step_returnTo_none hd, Sight.through, Sight.through, h.readers.unplaced_eq]
        exact ⟨rfl, h⟩
      · rw [step_returnTo_some hc, step_returnTo_some hd, (h.of_barred (Reader.barred_returnTo b)).1,
          (h.of_barred (Reader.barred_returnTo b')).2, Sight.through, Sight.through, h.readers.unplaced_eq]
        exact ⟨rfl, h⟩
  | drop slot =>
      have hdropped := h.drop slot
      rw [Client.step, Client.step, Sight.through, Sight.through, hdropped.readers.unplaced_eq]
      exact ⟨rfl, hdropped⟩

theorem uses_of_within {operation : Operation} (h : (Action.operate operation).Within kept) : Uses kept operation := by
  cases operation with
  | returnTo slot => exact h slot rfl
  | _ => trivial

theorem after_of_within {operation : Operation} (h : (Action.operate operation).Within kept) :
    after kept operation = kept := by
  cases operation with
  | take slot => exact Set.insert_eq_of_mem (h slot rfl)
  | _ => rfl

theorem Ended.act (h : Ended kept c d) (hwithin : action.Within kept) :
    (c.act action).1.through Reader.Face.unplaced = (d.act action).1.through Reader.Face.unplaced ∧
      Ended kept (c.act action).2 (d.act action).2 := by
  have hface := h.readers.unplaced_eq
  cases action with
  | operate operation => exact h.step (uses_of_within hwithin)
  | readDocument =>
      obtain ⟨hc, hd⟩ := h.of_barred Reader.barred_readDocument
      rw [Client.act, Client.act, hc, hd]
      exact ⟨congrArg (Sight.document _) hface, h⟩
  | readValue type =>
      obtain ⟨hc, hd⟩ := h.of_barred (Reader.barred_readValue type)
      rw [Client.act, Client.act, hc, hd]
      exact ⟨congrArg (Sight.value _) hface, h⟩
  | close => exact ⟨congrArg Sight.closed h.readers.close.unplaced_eq, h.readers.close, h.held_eq⟩
  | release =>
      have hsource : c.reader.input.source.isSome = d.reader.input.source.isSome := by
        have hc : c.reader.input.source.isNone = true := h.readers.left
        have hd : d.reader.input.source.isNone = true := h.readers.right
        rw [← Option.not_isNone, ← Option.not_isNone, hc, hd]
      exact ⟨congrArg₂ Sight.released hsource h.readers.release.unplaced_eq, h.readers.release, h.held_eq⟩

theorem Agree.of_steady (h : Agree o kept c d) {α : Type} {x : Read α} (hx : x.Steady) :
    (x.run.run c.reader).1 = (x.run.run d.reader).1 ∧ (x.run.run c.reader).2.face = (x.run.run d.reader).2.face ∧
      Agree o kept { c with reader := (x.run.run c.reader).2 } { d with reader := (x.run.run d.reader).2 } := by
  obtain ⟨hresult, hagree⟩ := hx.matches (Reader.blind_agree o _ _) h.readers
  exact ⟨hresult, hagree.face_eq, h.left.of_over hagree.left, h.right.of_over hagree.right, hagree.face_eq, h.held_eq⟩

/-- As long as the readers keep their sources, actions tell the same. -/
theorem Agree.act (h : Agree o kept c d) (hwithin : action.Within kept) (hkeeps : ¬action.GivesUp) :
    (c.act action).1 = (d.act action).1 ∧ Agree o kept (c.act action).2 (d.act action).2 := by
  cases action with
  | operate operation =>
      obtain ⟨hanswer, hagree⟩ := h.step (uses_of_within hwithin)
      rw [after_of_within hwithin] at hagree
      exact ⟨congrArg Sight.operated hanswer, hagree⟩
  | readDocument =>
      obtain ⟨hresult, hface, hagree⟩ := h.of_steady Reader.local_readDocument.steady
      exact ⟨congrArg₂ Sight.document hresult hface, hagree⟩
  | readValue type =>
      obtain ⟨hresult, hface, hagree⟩ := h.of_steady (Reader.local_readValue type).steady
      exact ⟨congrArg₂ Sight.value hresult hface, hagree⟩
  | close | release => exact absurd trivial hkeeps

/-- What is kept decides where a reader stands that gives up its source, and nothing else. -/
theorem Agree.ended (h : Agree o kept c d) (hgives : action.GivesUp) :
    (c.act action).1.through Reader.Face.unplaced = (d.act action).1.through Reader.Face.unplaced ∧
      Ended kept (c.act action).2 (d.act action).2 := by
  cases action with
  | close =>
      have hended := Reader.ended_close h.readers.alike.currentType_eq h.readers.alike.currentName_eq
      exact ⟨congrArg Sight.closed hended.unplaced_eq, hended, h.held_eq⟩
  | release =>
      have hsource : c.reader.input.source.isSome = d.reader.input.source.isSome := by
        have hc : c.reader.input.source.isNone = false := h.left.reader_over.window.isReleased_eq
        have hd : d.reader.input.source.isNone = false := h.right.reader_over.window.isReleased_eq
        rw [← Option.not_isNone, ← Option.not_isNone, hc, hd]
      have hended := Reader.ended_release
        (congrArg (fun f : Reader.Face => { f with position := 0, state := .closed }) h.face_eq)
      exact ⟨congrArg₂ Sight.released hsource hended.unplaced_eq, hended, h.held_eq⟩
  | _ => exact hgives.elim

/-- Two clients that keep different bytes, and show the same until their readers are closed. -/
def Drifted (o : Opening) (kept : Set Nat) (c d : Client) : Prop := Agree o kept c d ∨ Ended kept c d

theorem Drifted.act (h : Drifted o kept c d) (hwithin : action.Within kept) :
    (c.act action).1.through Reader.Face.unplaced = (d.act action).1.through Reader.Face.unplaced ∧
      Drifted o kept (c.act action).2 (d.act action).2 := by
  obtain hagree | hended := h
  · by_cases hgives : action.GivesUp
    · exact (hagree.ended hgives).imp_right .inr
    · exact (hagree.act hwithin hgives).imp (congrArg _) .inl
  · exact (hended.act hwithin).imp_right .inr

theorem Drifted.perform (h : Drifted o Set.univ c d) (actions : List Action) :
    (c.perform actions).1.map (Sight.through Reader.Face.unplaced) =
      (d.perform actions).1.map (Sight.through Reader.Face.unplaced) := by
  induction actions generalizing c d with
  | nil => rfl
  | cons action later ih =>
      obtain ⟨hsight, hdrifted⟩ := h.act fun slot _ => Set.mem_univ slot
      exact congrArg₂ List.cons hsight (ih hdrifted)

/-- The reader of a client after a value has been passed over and the one after it has been read. They are in one place.
What is told between them is what is held between elements and which bytes are kept; inside a container these bytes are
the same. -/
structure PassedFor (o : Opening) (c : Client) (p t : Reader) : Prop where
  position_eq : p.position = t.position
  state_eq : p.state = t.state
  frames_eq : p.frames = t.frames
  between : Between p.state p.frames
  agree : Agree o Set.univ { c with reader := { p with currentType := t.currentType, currentName := t.currentName } }
    { c with reader := t }
  twin : c.reader.frames ≠ [] →
    Twin o { c with reader := { p with currentType := t.currentType, currentName := t.currentName } }
      { c with reader := t }

theorem Sound.exists_passedFor (h : c.Sound o) {type : ElementType} {v : Value} {t : Reader}
    (hstate : c.reader.state = .value) (htype : c.reader.currentType = some type)
    (hread : (Reader.readValue type).run.run c.reader = (.ok v, t)) :
    ∃ p, Reader.skipValue.run.run c.reader = (.ok (), p) ∧ PassedFor o c p t := by
  have hwindow := h.reader_over.window
  obtain ⟨hcompleted, -⟩ := Reader.finished_of_readValue hwindow hstate hread
  obtain ⟨count, s, hskip, ⟨input, rfl, hinput⟩, hposition⟩ :=
    Reader.exists_skipValue_run hwindow hstate htype hread
  have hlast : Reader.afterContainer c.reader.frames ≠ .closed := by
    rw [Reader.afterContainer]
    split <;> decide
  -- the reader after passing over, but with the type and the name that reading leaves
  have hp : Reader.Over o c.reader.pinning { c.reader with
      input, state := Reader.afterContainer c.reader.frames, currentType := t.currentType,
      currentName := t.currentName } :=
    (h.reader_over.reaches hinput.reaches).shows hlast _ _ _
  have ht : t.Over o c.reader.pinning := by
    have hover := h.reader_over.steady (Reader.local_readValue type).steady
    rwa [hread] at hover
  have hplace : input.position = t.position := hinput.position_eq.trans hposition.symm
  have hface : Reader.face { c.reader with
      input, state := Reader.afterContainer c.reader.frames, currentType := t.currentType,
      currentName := t.currentName } = t.face := by
    simp only [Reader.face, Reader.position, hcompleted.frames_eq, hcompleted.state_eq]
    rw [hplace, Reader.position]
  refine ⟨_, hskip, hplace, hcompleted.state_eq.symm, hcompleted.frames_eq.symm, between_afterContainer _,
    ⟨h.of_over hp, h.of_over ht, hface, fun _ _ => rfl⟩, fun hframes => ⟨h.of_over hp, h.of_over ht, ?_, rfl⟩⟩
  refine ⟨⟨hp.pinning_eq ▸ hp, hp.pinning_eq ▸ ht, hface⟩, ?_, hcompleted.log_eq.symm⟩
  exact hinput.base_eq.trans (hcompleted.base_eq hframes).symm

variable {p t : Reader}

theorem PassedFor.veiled (h : PassedFor o c p t) :
    Veiled { c with reader := p }
      { c with reader := { p with currentType := t.currentType, currentName := t.currentName } } where
  readers := .between h.between _ _
  held slot := by
    cases c.held slot with
    | none => exact .none
    | some b => exact .some .same

theorem map_through_comp (look look' : Reader.Face → Reader.Face) (sights : List Sight) :
    sights.map (Sight.through fun f => look' (look f)) =
      (sights.map (Sight.through look)).map (Sight.through look') := by
  rw [List.map_map]
  refine List.map_congr_left fun sight _ => ?_
  cases sight <;> rfl

theorem unplaced_unnamed (f : Reader.Face) : f.unnamed.unplaced = f.unplaced.unnamed := by
  rw [Reader.Face.unplaced, Reader.Face.unplaced, apply_ite Reader.Face.unnamed]
  rfl

/-- Between documents the difference shows in the position of a reader that is closed, and in what is held between
elements. -/
theorem PassedFor.perform (h : PassedFor o c p t) (later : List Action) :
    (Client.perform { c with reader := p } later).1.map (Sight.through fun f => f.unnamed.unplaced) =
      (Client.perform { c with reader := t } later).1.map (Sight.through fun f => f.unnamed.unplaced) := by
  have hdrifted : Drifted o Set.univ
      { c with reader := { p with currentType := t.currentType, currentName := t.currentName } }
      { c with reader := t } := .inl h.agree
  rw [map_through_comp Reader.Face.unnamed, (h.veiled.perform later).1, ← map_through_comp, funext unplaced_unnamed,
    map_through_comp Reader.Face.unplaced, hdrifted.perform later, ← map_through_comp]

/-- Inside a container it shows in what is held between elements alone. -/
theorem PassedFor.perform_nested (h : PassedFor o c p t) (hframes : c.reader.frames ≠ []) (later : List Action) :
    (Client.perform { c with reader := p } later).1.map (Sight.through Reader.Face.unnamed) =
      (Client.perform { c with reader := t } later).1.map (Sight.through Reader.Face.unnamed) := by
  have hsame : Same o { c with reader := { p with currentType := t.currentType, currentName := t.currentName } }
      { c with reader := t } := .inl (h.twin hframes)
  rw [(h.veiled.perform later).1, (hsame.perform later).1]

end Client

end Aggregation.Wire
