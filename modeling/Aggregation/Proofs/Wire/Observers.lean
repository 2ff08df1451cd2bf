import Aggregation.Proofs.Wire.Passing

/-! Looking on. Asking whether the input has ended pulls bytes into the buffer and may find the end early, and a bookmark
changes what is kept when a document is completed. So a reader that is looked at on the side soon keeps other bytes than
one that is left alone; but for as long as it has its source it shows the same, whatever is done with it. -/

namespace Aggregation.Wire

open Stepping

/-- What a client does on the side. -/
inductive Observation where
  /-- Asks whether the input has ended. -/
  | ask
  | take (slot : Nat)
  | drop (slot : Nat)

/-- What the reader shows after an action. -/
def Sight.face : Sight → Reader.Face
  | .operated answer => answer.face
  | .document _ face | .value _ face | .closed face | .released _ face => face

namespace Observation

def operation : Observation → Operation
  | ask => .call .isAtEnd
  | take slot => .take slot
  | drop slot => .drop slot

/-- An observation leaves the bookmarks in certain slots alone. -/
def Apart (kept : Set Nat) (observation : Observation) : Prop :=
  ∀ slot, observation.operation.slot? = some slot → slot ∉ kept

theorem Apart.spares {kept : Set Nat} {observation : Observation} (h : observation.Apart kept) {slot : Nat}
    (hslot : slot ∈ kept) : Client.Spares slot observation.operation := by
  cases observation with
  | ask => trivial
  | take other | drop other =>
      rintro rfl
      exact h slot rfl hslot

end Observation

namespace Reader

open Read

variable {o : Opening} {pins : List Pin × Nat} {r : Reader}

/-- Asking whether the input has ended changes nothing that can be seen. -/
theorem face_isAtEnd (h : r.Over o pins) : (isAtEnd.run.run r).2.face = r.face := by
  obtain ⟨input, hrun, hreaches⟩ := Replay.settles_hasRemaining r.position r.input h.window rfl
  have hface : Reader.face { r with input } = r.face := by
    simp only [face, position, hreaches.position_eq]
  -- whether there is more, or the transport fails, no byte is consumed
  generalize (if r.position < o.feed.bytes.length then .ok true else o.feed.afterLast) = result at hrun
  have hask : ((do return !(← onInput Replay.hasRemaining) : Read Bool).run.run r).2.face = r.face := by
    rw [run_bind, onInput_run, hrun]
    cases result <;> exact hface
  rw [isAtEnd, run_bind_ok (ensureOpen_run_of_over h), run_bind_ok (run_get r)]
  split
  · exact hask
  · exact hask
  · rfl

end Reader

namespace Client

variable {o : Opening} {kept : Set Nat} {c d : Client} {observation : Observation}

/-- What a client sees of its actions when it does other things on the side. -/
def watch (c : Client) : List (Observation ⊕ Action) → List Sight × Client
  | [] => ([], c)
  | .inl observation :: later => (c.step observation.operation).2.watch later
  | .inr action :: later =>
    let (sight, c) := c.act action
    let (sights, c) := c.watch later
    (sight :: sights, c)

theorem face_observe (h : c.Sound o) (observation : Observation) :
    (c.step observation.operation).2.reader.face = c.reader.face := by
  cases observation with
  | ask => exact Reader.face_isAtEnd h.reader_over
  | take slot =>
      obtain ⟨c', hstep, -, -, hface⟩ := step_take h slot
      rw [Observation.operation, hstep, hface]
  | drop slot => exact drop_face c slot

/-- A reader without a source refuses to be looked at, and a bookmark that is dropped leaves it alone. -/
theorem peers_observe (h : c.reader.input.isReleased = true) (observation : Observation) :
    Reader.Peers (c.step observation.operation).2.reader c.reader := by
  have hclosed := Reader.isClosed_of_isReleased h
  cases observation with
  | ask =>
      rw [Observation.operation, step_call, Reader.barred_read .isAtEnd _ hclosed]
      exact ⟨rfl, rfl, rfl, rfl⟩
  | take slot =>
      rw [Observation.operation, step, Reader.barred_bookmark _ hclosed]
      exact ⟨rfl, rfl, rfl, rfl⟩
  | drop slot => exact peers_drop c slot

theorem Agree.observe (h : Agree o kept c d) (hapart : observation.Apart kept) :
    Agree o kept (c.step observation.operation).2 d where
  left := h.left.step _
  right := h.right
  face_eq := (face_observe h.left observation).trans h.face_eq
  held_eq slot hslot := by rw [held_step c (hapart.spares hslot), h.held_eq slot hslot]

theorem Ended.observe (h : Ended kept c d) (hapart : observation.Apart kept) :
    Ended kept (c.step observation.operation).2 d where
  readers := h.readers.of_peers (peers_observe h.readers.left observation) ⟨rfl, rfl, rfl, rfl⟩
  held_eq slot hslot := by rw [held_step c (hapart.spares hslot), h.held_eq slot hslot]

/-- What is done on the side leaves the bookmarks in certain slots alone, and actions have to do with these alone. -/
def Divides (kept : Set Nat) : Observation ⊕ Action → Prop
  | .inl observation => observation.Apart kept
  | .inr action => action.Within kept

/-- One client is looked at on the side and the other one is not: as long as the readers have their sources, all that
is done tells the same. -/
theorem Agree.watch (h : Agree o kept c d) {steps : List (Observation ⊕ Action)}
    (hdivides : ∀ step ∈ steps, Divides kept step) (hkeeps : ∀ action ∈ steps.filterMap Sum.getRight?, ¬action.GivesUp) :
    (c.watch steps).1 = (d.perform (steps.filterMap Sum.getRight?)).1 := by
  induction steps generalizing c d with
  | nil => rfl
  | cons step later ih =>
      obtain ⟨hfirst, hlater⟩ := List.forall_mem_cons.1 hdivides
      cases step with
      | inl observation => exact ih (h.observe hfirst) hlater hkeeps
      | inr action =>
          obtain ⟨hkeep, hkeeps⟩ := List.forall_mem_cons.1 hkeeps
          obtain ⟨hsight, hagree⟩ := h.act hfirst hkeep
          exact congrArg₂ List.cons hsight (ih hagree hlater hkeeps)

theorem Drifted.observe (h : Drifted o kept c d) (hapart : observation.Apart kept) :
    Drifted o kept (c.step observation.operation).2 d :=
  h.imp (·.observe hapart) (·.observe hapart)

/-- After that they tell the same but for where the readers stand. -/
theorem Drifted.watch (h : Drifted o kept c d) {steps : List (Observation ⊕ Action)}
    (hdivides : ∀ step ∈ steps, Divides kept step) :
    (c.watch steps).1.map (Sight.through Reader.Face.unplaced) =
      (d.perform (steps.filterMap Sum.getRight?)).1.map (Sight.through Reader.Face.unplaced) := by
  induction steps generalizing c d with
  | nil => rfl
  | cons step later ih =>
      obtain ⟨hfirst, hlater⟩ := List.forall_mem_cons.1 hdivides
      cases step with
      | inl observation => exact ih (h.observe hfirst) hlater
      | inr action =>
          obtain ⟨hsight, hdrifted⟩ := h.act hfirst
          exact congrArg₂ List.cons hsight (ih hdrifted hlater)

/-- Observers are transparent: whatever is asked and bookmarked between actions, and whichever of these bookmarks are
still held, every action of a client tells the same, and the reader shows the same after it. Once the source has been
given up this holds but for the position. -/
theorem watch_transparent (source : Source) (limits : Limits) (serial : Nat) {foreign : Nat → Option Bookmark}
    (hforeign : ∀ slot b, foreign slot = some b → b.reader ≠ serial) {steps : List (Observation ⊕ Action)}
    {actions : List Action} (hactions : actions = steps.filterMap Sum.getRight?)
    (hapart : ∀ observation slot, .inl observation ∈ steps → observation.operation.slot? = some slot →
      ∀ action ∈ actions, action.slot? ≠ some slot) {c : Client} (hc : c = ofSource source limits serial foreign) :
    ((∀ action ∈ actions, ¬action.GivesUp) → (c.watch steps).1 = (c.perform actions).1) ∧
      (c.watch steps).1.map (Sight.through Reader.Face.unplaced) =
        (c.perform actions).1.map (Sight.through Reader.Face.unplaced) := by
  subst hactions hc
  -- the bookmarks that the actions have to do with
  obtain ⟨kept, hkept⟩ : ∃ kept : Set Nat,
      kept = {slot | ∃ action ∈ steps.filterMap Sum.getRight?, action.slot? = some slot} := ⟨_, rfl⟩
  have hsound := sound_ofSource source limits serial hforeign
  have hagree : Agree ⟨source.feed, serial, limits⟩ kept (ofSource source limits serial foreign)
      (ofSource source limits serial foreign) := ⟨hsound, hsound, rfl, fun _ _ => rfl⟩
  have hdivides : ∀ step ∈ steps, Divides kept step := by
    rw [hkept]
    rintro (observation | action) hstep slot hslot
    · rintro ⟨action, haction, heq⟩
      exact hapart observation slot hstep hslot action haction heq
    · exact ⟨action, List.mem_filterMap.2 ⟨_, hstep, rfl⟩, hslot⟩
  have hdrifted : Drifted ⟨source.feed, serial, limits⟩ kept (ofSource source limits serial foreign)
      (ofSource source limits serial foreign) := .inl hagree
  exact ⟨hagree.watch hdivides, hdrifted.watch hdivides⟩

/-- A bookmark that is taken on the side keeps two documents that are forgotten otherwise, and the transport fails first
when it is asked for the end. -/
theorem watch_transparent_held :
    ∃ c steps actions,
      c = ofSource (.ofBytes [5, 0, 0, 0, 0, 5, 0, 0, 0, 0] 3 (some (10, "reset")) true) {} 0 (fun _ => none) ∧
      steps = [.inl .ask, .inr (.operate (.call .startDocument)), .inl (.take 1), .inr (.operate (.take 0)),
        .inr (.operate (.call .readType)), .inr (.operate (.returnTo 0)), .inr (.operate (.drop 0)),
        .inr (.operate (.call .readType)), .inl .ask, .inr (.operate (.call .endDocument)), .inl (.take 2), .inl .ask,
        .inl (.drop 2), .inr .readDocument, .inl .ask, .inr (.operate (.call .startDocument))] ∧
      actions = steps.filterMap Sum.getRight? ∧
      ((c.watch steps).2.reader.input.base = 4 ∧ (c.perform actions).2.reader.input.base = 10) ∧
      (c.watch steps).1 = (c.perform actions).1 ∧
      (c.watch (steps ++ [.inr .close])).1.map (Sight.through Reader.Face.unplaced) =
        (c.perform (actions ++ [.close])).1.map (Sight.through Reader.Face.unplaced) := by
  have hforeign : ∀ slot b, (fun _ => none : Nat → Option Bookmark) slot = some b → b.reader ≠ 0 := nofun
  refine ⟨_, _, _, rfl, rfl, rfl, by decide +kernel, (watch_transparent _ {} 0 hforeign rfl ?apart rfl).1 ?keeps,
    (watch_transparent _ {} 0 hforeign rfl ?closing rfl).2⟩
  case keeps => simp [Action.GivesUp]
  -- the actions have the slot 0, which nothing on the side has
  case apart | closing =>
    rintro (_ | other | other) slot hmem hslot
    · cases hslot
    all_goals
      cases hslot
      have hother : other ≠ 0 := by
        rintro rfl
        simp at hmem
      simp [Action.slot?, Operation.slot?, hother.symm]

/-- What is kept shows once the source is given up: a reader that is closed stands where the kept bytes begin. With a
bookmark on the side that is before the document, and without it after the document. -/
theorem watch_close_ne :
    ∃ c steps actions,
      c = ofSource (.ofBytes [5, 0, 0, 0, 0]) {} 0 (fun _ => none) ∧
      steps = [.inl (.take 0), .inr (.operate (.call .startDocument)), .inr (.operate (.call .readType)),
        .inr (.operate (.call .endDocument)), .inr .close] ∧
      actions = steps.filterMap Sum.getRight? ∧
      ((c.watch steps).2.reader.position = 0 ∧ (c.perform actions).2.reader.position = 5) ∧
      (c.watch steps).1 ≠ (c.perform actions).1 := by
  refine ⟨_, _, _, rfl, rfl, rfl, by decide +kernel, fun heq => ?_⟩
  have hface := congrArg (List.map Sight.face) heq
  revert hface
  decide +kernel

end Client

end Aggregation.Wire
