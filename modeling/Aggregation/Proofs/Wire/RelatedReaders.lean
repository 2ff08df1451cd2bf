import Aggregation.Proofs.Wire.Agreement
import Aggregation.Proofs.Wire.LocalSteps

/-! Two readers side by side, in a relation that lasts: it survives what steps do to both readers alike. Some relations
hold of readers that show the same; then a step gives the same on both, be it a result or an error. Others leave open
what names the readers know. Names are parts of paths, which occur in errors alone, so that the second reader still does
what the first one does as long as that one succeeds, unless it lacks something that the first one has. What every step
does under any such relation is shown once, for all of them. -/

namespace Aggregation.Wire

open Stepping

/-- A container without its part of a path. -/
def Frame.bare (frame : Frame) : Frame := { frame with segment := none }

namespace Reader

/-- What steps change of a reader beside its input and its log. -/
structure Look where
  state : ReaderState
  currentType : Option ElementType
  currentName : Option String
  frames : List Frame

def look (r : Reader) : Look := ⟨r.state, r.currentType, r.currentName, r.frames⟩

def wear (r : Reader) (l : Look) : Reader :=
  { r with state := l.state, currentType := l.currentType, currentName := l.currentName, frames := l.frames }

/-- The looks of two readers that may know different names. The type of an element is the same as long as the element
is under way. -/
structure Look.Beside (l m : Look) : Prop where
  state_ne : l.state ≠ .closed
  state_eq : l.state = m.state
  type_eq : l.state = .name ∨ l.state = .value → l.currentType = m.currentType
  frames_eq : l.frames.map Frame.bare = m.frames.map Frame.bare

/-- Two open readers at one place, which may know different names. -/
structure Beside (r q : Reader) : Prop where
  position_eq : r.position = q.position
  limits_eq : r.limits = q.limits
  look : r.look.Beside q.look

section Beside

variable {r q : Reader}

theorem Alike.look_eq (h : Alike r q) : r.look = q.look := by
  rw [Reader.look, Reader.look, h.state_eq, h.currentType_eq, h.currentName_eq, h.frames_eq]

theorem Alike.beside (h : Alike r q) (hne : r.state ≠ .closed) : Beside r q :=
  ⟨h.position_eq, h.limits_eq, hne, h.state_eq, fun _ => h.currentType_eq, by rw [h.look_eq]⟩

theorem Beside.state_ne (h : Beside r q) : r.state ≠ .closed := h.look.state_ne

theorem Beside.state_eq (h : Beside r q) : r.state = q.state := h.look.state_eq

theorem Beside.type_eq (h : Beside r q) (hunder : r.state = .name ∨ r.state = .value) :
    r.currentType = q.currentType := h.look.type_eq hunder

theorem Beside.frames_eq (h : Beside r q) : r.frames.map Frame.bare = q.frames.map Frame.bare := h.look.frames_eq

/-- The inputs of both may change as long as they stay at one position. -/
theorem Beside.onInput (h : Beside r q) {b c : ReplayBuffer} (hposition : b.position = c.position) :
    Beside { r with input := b } { q with input := c } := ⟨hposition, h.limits_eq, h.look⟩

theorem Beside.wear (h : Beside r q) {l m : Look} (hlook : l.Beside m) : Beside (r.wear l) (q.wear m) :=
  ⟨h.position_eq, h.limits_eq, hlook⟩

theorem Beside.length_frames_eq (h : Beside r q) : r.frames.length = q.frames.length := by
  rw [← List.length_map (f := Frame.bare), h.frames_eq, List.length_map]

theorem Look.Beside.isEmpty_frames_eq {l m : Look} (h : l.Beside m) : l.frames.isEmpty = m.frames.isEmpty := by
  rw [← List.isEmpty_map (f := Frame.bare), h.frames_eq, List.isEmpty_map]

theorem Beside.isEmpty_frames_eq (h : Beside r q) : r.frames.isEmpty = q.frames.isEmpty := h.look.isEmpty_frames_eq

theorem Beside.head_kind_eq (h : Beside r q) :
    r.frames.head?.map Frame.kind = q.frames.head?.map Frame.kind := by
  have hhead := congrArg (fun frames => frames.head?.map Frame.kind) h.frames_eq
  simp only [List.head?_map, Option.map_map] at hhead
  exact hhead

theorem Beside.frames_eq_nil (h : Beside r q) (hframes : r.frames = []) : q.frames = [] := by
  rw [← List.isEmpty_iff, ← h.isEmpty_frames_eq, hframes]
  rfl

/-- The innermost containers are the same but for their parts of paths. -/
theorem Beside.exists_frame (h : Beside r q) {frame : Frame} {frames : List Frame}
    (hframes : r.frames = frame :: frames) :
    ∃ frame' frames', q.frames = frame' :: frames' ∧ frame.bare = frame'.bare ∧
      frames.map Frame.bare = frames'.map Frame.bare := by
  have heq := h.frames_eq
  rw [hframes] at heq
  cases hq : q.frames with
  | nil =>
      rw [hq] at heq
      cases heq
  | cons frame' frames' =>
      rw [hq] at heq
      obtain ⟨hframe, hrest⟩ := List.cons.inj heq
      exact ⟨frame', frames', rfl, hframe, hrest⟩

end Beside

end Reader

namespace Read

open Reader

variable {α β : Type}

/-- A relation of two readers, whether it leaves open what the second does where the first one fails, and the errors
that the second has for want of something. -/
structure Bond where
  rel : Reader → Reader → Prop
  lenient : Prop
  lacks : WireError → Prop

/-- The bond of readers of which the second does what the first one does, whatever it is. -/
def Bond.exact (R : Reader → Reader → Prop) : Bond := ⟨R, False, fun _ => False⟩

/-- What a step gives on the first reader another one gives on the second, and the readers stay related; unless the
first one fails and that is left open, or the second one lacks something. -/
inductive Follows (B : Bond) (x y : Read α) (r q : Reader) : Prop
  | same (h : Matches B.rel x y r q)
  | fails (hlenient : B.lenient) (h : Fails x r)
  | lacks {e : WireError} (h : (y.run.run q).1 = .error e) (hlacks : B.lacks e)

section Follows

variable {B : Bond} {x y : Read α} {f g : α → Read β} {r q s t : Reader} {a b : α}

theorem Follows.congr {x' y' : Read α} (h : Follows B x y s t) (hx : x'.run.run r = x.run.run s)
    (hy : y'.run.run q = y.run.run t) : Follows B x' y' r q := by
  cases h with
  | same h => exact .same (by rwa [Matches, hx, hy])
  | fails hlenient h => exact .fails hlenient (by rwa [Fails, hx])
  | lacks h hlacks => exact .lacks (by rw [hy, h]) hlacks

theorem Follows.bind (h : Follows B x y r q)
    (hf : ∀ a s t, y.run.run q = (.ok a, t) → B.rel s t → Follows B (f a) (g a) s t) :
    Follows B (x >>= f) (y >>= g) r q := by
  cases h with
  | fails hlenient h => exact .fails hlenient (h.bind f)
  | lacks h hlacks => exact .lacks (by rw [run_bind_error (Prod.ext h rfl)]) hlacks
  | same h =>
      obtain ⟨hresult, hrel⟩ := h
      rcases hx : x.run.run r with ⟨e | a, s⟩
      · rcases hy : y.run.run q with ⟨result, t⟩
        rw [hx, hy] at hresult hrel
        obtain rfl : .error e = result := hresult
        exact .same (by rw [Matches, run_bind_error hx, run_bind_error hy]; exact ⟨rfl, hrel⟩)
      · rcases hy : y.run.run q with ⟨result, t⟩
        rw [hx, hy] at hresult hrel
        obtain rfl : .ok a = result := hresult
        exact (hf a s t hy hrel).congr (run_bind_ok hx) (run_bind_ok hy)

/-- Where nothing is left open and nothing can be lacking, the steps do the same. -/
theorem Follows.matches (h : Follows B x y r q) (hexact : ¬B.lenient) (hlacks : ∀ e, ¬B.lacks e) :
    Matches B.rel x y r q := by
  cases h with
  | same h => exact h
  | fails hlenient => exact absurd hlenient hexact
  | lacks _ h => exact absurd h (hlacks _)

/-- What the first step gives if it succeeds. -/
theorem Follows.ok (h : Follows B x y r q) (hrun : x.run.run r = (.ok a, s)) :
    (∃ e, (y.run.run q).1 = .error e ∧ B.lacks e) ∨ ∃ t, y.run.run q = (.ok a, t) ∧ B.rel s t := by
  cases h with
  | fails _ h => exact absurd hrun h.ne_ok
  | lacks h hlacks => exact .inl ⟨_, h, hlacks⟩
  | same h =>
      obtain ⟨hresult, hrel⟩ := h
      rw [hrun] at hresult hrel
      exact .inr ⟨(y.run.run q).2, Prod.ext hresult.symm rfl, hrel⟩

theorem follows_pure (h : B.rel r q) (a : α) : Follows B (pure a : Read α) (pure a) r q := .same ⟨rfl, h⟩

theorem follows_throw (h : B.rel r q) {e e' : WireError} (heq : ¬B.lenient → e = e') :
    Follows B (throw e : Read α) (throw e') r q := by
  by_cases hlenient : B.lenient
  · exact .fails hlenient (fails_throw e r)
  · exact .same ⟨by rw [heq hlenient]; rfl, h⟩

theorem follows_modify {f g : Reader → Reader} (h : B.rel (f r) (g q)) : Follows B (modify f) (modify g) r q :=
  .same ⟨rfl, h⟩

theorem follows_get_bind {f g : Reader → Read β} (h : Follows B (f r) (g q) r q) :
    Follows B (get >>= f) (get >>= g) r q := h.congr (run_bind_ok (run_get r)) (run_bind_ok (run_get q))

/-- What is refused on both readers, or goes on on both. -/
theorem follows_check {c : Prop} [Decidable c] {z z' : Read Unit} {k k' : Unit → Read β} (hz : Follows B z z' r q)
    (hfails : Fails z' q) (hk : ¬c → Follows B (k ()) (k' ()) r q) :
    Follows B (if c then z >>= k else k ()) (if c then z' >>= k' else k' ()) r q := by
  split
  · exact hz.bind fun _ _ _ hrun => absurd hrun hfails.ne_ok
  · next hc => exact hk hc

end Follows

/-- A bond that lasts. Related readers are open, each over some feed, and at one place; if the bond leaves nothing open
they show the same. The relation survives reading from the input, and whatever else steps do to both readers alike. -/
structure Bond.Lasting (B : Bond) : Prop where
  beside : ∀ {r q}, B.rel r q → Beside r q
  left : ∀ {r q}, B.rel r q → ∃ feed, r.input.Window feed
  right : ∀ {r q}, B.rel r q → ∃ feed, q.input.Window feed
  alike : ¬B.lenient → ∀ {r q}, B.rel r q → Alike r q
  lenient_of_lacks : ∀ {e}, B.lacks e → B.lenient
  onInput : ∀ {α} {step : Replay α}, step.Local → ∀ {r q}, B.rel r q →
    Follows B (Read.onInput step) (Read.onInput step) r q
  /-- Looking ahead tells nothing apart where nothing is lacking. -/
  foresees : (∀ e, ¬B.lacks e) → ∀ {α} {step : Replay α}, step.Steady → ∀ {r q}, B.rel r q →
    Follows B (Read.onInput step) (Read.onInput step) r q
  wear : ∀ {r q}, B.rel r q → ∀ {l m : Look}, l.Beside m → (¬B.lenient → l = m) → B.rel (r.wear l) (q.wear m)
  record : ¬B.lenient → ∀ {r q}, B.rel r q → ∀ entry,
    B.rel { r with log := r.log ++ [entry] } { q with log := q.log ++ [entry] }
  compact : ∀ {r q}, B.rel r q → B.rel { r with input := r.input.compact } { q with input := q.input.compact }

section Lasting

variable {B : Bond} {r q : Reader}

theorem Bond.Lasting.look_eq (hB : B.Lasting) (h : B.rel r q) (hexact : ¬B.lenient) : r.look = q.look :=
  (hB.alike hexact h).look_eq

theorem Bond.Lasting.isClosed_eq (hB : B.Lasting) (h : B.rel r q) : r.isClosed = q.isClosed := by
  obtain ⟨_, hleft⟩ := hB.left h
  obtain ⟨_, hright⟩ := hB.right h
  rw [isClosed, isClosed, (hB.beside h).state_eq, hleft.isReleased_eq, hright.isReleased_eq]

end Lasting

end Read

namespace Reader

open Read

/-- A relation between readers that no step tells apart. Related readers are open and show the same; the relation
survives reading from the input, and whatever else steps do to both readers alike. -/
structure Blind (R : Reader → Reader → Prop) : Prop where
  alike : ∀ {r q}, R r q → Alike r q
  state_ne : ∀ {r q}, R r q → r.state ≠ .closed
  left : ∀ {r q}, R r q → ∃ feed, r.input.Window feed
  right : ∀ {r q}, R r q → ∃ feed, q.input.Window feed
  onInput : ∀ {α} {step : Replay α}, step.Steady → Lockstep R (Read.onInput step)
  shows : ∀ {r q}, R r q → ∀ {state : ReaderState}, state ≠ .closed → ∀ currentType currentName frames,
    R { r with state, currentType, currentName, frames } { q with state, currentType, currentName, frames }
  record : ∀ {r q}, R r q → ∀ entry, R { r with log := r.log ++ [entry] } { q with log := q.log ++ [entry] }
  compact : ∀ {r q}, R r q → R { r with input := r.input.compact } { q with input := q.input.compact }

theorem Blind.lasting {R : Reader → Reader → Prop} (hR : Blind R) : (Bond.exact R).Lasting where
  beside h := (hR.alike h).beside (hR.state_ne h)
  left := hR.left
  right := hR.right
  alike _ _ _ := hR.alike
  lenient_of_lacks := False.elim
  onInput hstep _ _ h := .same (hR.onInput hstep.steady _ _ h)
  foresees _ _ _ hstep _ _ h := .same (hR.onInput hstep _ _ h)
  wear := by
    intro r q h l m hbeside heq
    obtain rfl := heq not_false
    exact hR.shows h hbeside.state_ne _ _ _
  record _ _ _ := hR.record
  compact := hR.compact

theorem blind_agree (o : Opening) (pins pins' : List Pin × Nat) : Blind (Agree o pins pins') where
  alike h := h.alike
  state_ne h := h.left.state_ne
  left h := ⟨o.feed, h.left.window⟩
  right h := ⟨o.feed, h.right.window⟩
  onInput hstep _ _ h := h.onInput hstep
  shows h _ hstate _ _ _ := h.shows hstate _ _ _
  record h _ := ⟨h.left.recorded _, h.right.recorded _, h.face_eq⟩
  compact h := h.reaches h.left.window.reaches_compact h.right.window.reaches_compact h.position_eq

end Reader

namespace Read

open Reader

variable {α β : Type} {x : Read α}

/-- A step that does not tell readers in a lasting bond apart. -/
def Local (x : Read α) : Prop := ∀ ⦃B : Bond⦄, B.Lasting → ∀ ⦃r q⦄, B.rel r q → Follows B x x r q

/-- A step that does not tell them apart as long as neither reader lacks what the other one has. -/
def Steady (x : Read α) : Prop :=
  ∀ ⦃B : Bond⦄, B.Lasting → (∀ e, ¬B.lacks e) → ∀ ⦃r q⦄, B.rel r q → Follows B x x r q

theorem Local.steady (hx : Local x) : Steady x := fun _ hB _ _ _ h => hx hB h

/-- A step that does not tell two readers apart that show the same. -/
theorem Steady.matches (hx : Steady x) {R : Reader → Reader → Prop} (hR : Blind R) {r q : Reader} (h : R r q) :
    Matches R x x r q :=
  (hx hR.lasting (fun _ => id) h).matches id fun _ => id

theorem Local.bind {f : α → Read β} (hx : Local x) (hf : ∀ a, Local (f a)) : Local (x >>= f) :=
  fun _ hB _ _ h => (hx hB h).bind fun a _ _ _ h => hf a hB h

theorem local_pure (a : α) : Local (pure a : Read α) := fun _ _ _ _ h => follows_pure h a

theorem local_throw (e : WireError) : Local (throw e : Read α) := fun _ _ _ _ h => follows_throw h fun _ => rfl

theorem Local.bind_pure (hx : Local x) (k : α → β) : Local (do return k (← x)) := hx.bind fun a => local_pure (k a)

theorem Local.discard (hx : Local x) : Local (discard x) := by
  rw [discard_eq_bind]
  exact hx.bind fun _ => local_pure ()

theorem local_onInput {step : Replay α} (hstep : step.Local) : Local (onInput step) := fun _ hB _ _ h =>
  hB.onInput hstep h

/-- What follows a look at the reader may depend on what readers at one place have in common. -/
theorem local_get_bind {f : Reader → Read β} (heq : ∀ {r q}, Beside r q → f r = f q) (hf : ∀ r, Local (f r)) :
    Local (get >>= f) := fun _ hB r _ h => follows_get_bind (heq (hB.beside h) ▸ hf r hB h)

theorem local_ite {c : Prop} [Decidable c] {y : Read α} (hx : Local x) (hy : Local y) :
    Local (if c then x else y) := by
  split
  · exact hx
  · exact hy

/-- A check that may fail, and what follows it. -/
theorem local_check {c : Prop} [Decidable c] {z : Read Unit} {k : Unit → Read β} (hz : Local z)
    (hk : ∀ a, Local (k a)) : Local (if c then z >>= k else k ()) := local_ite (hz.bind hk) (hk ())

/-- A change of the look by what readers at one place have in common. -/
theorem local_wear (φ : Look → Look) (hφ : ∀ {l m : Look}, l.Beside m → (φ l).Beside (φ m)) :
    Local (modify fun r => r.wear (φ r.look)) := fun _ hB _ _ h =>
  follows_modify (hB.wear h (hφ (hB.beside h).look) fun hexact => by rw [hB.look_eq h hexact])

theorem local_compact : Local (modify fun r => { r with input := r.input.compact }) := fun _ hB _ _ h =>
  follows_modify (hB.compact h)

theorem fails_refuse (operation : String) (r : Reader) : Fails (refuse operation : Read α) r :=
  fails_bind_ok (run_get r) (fails_throw _ r)

theorem fails_outOfBytes (r : Reader) : Fails (onInput Replay.outOfBytes : Read α) r := ⟨_, _, rfl⟩

theorem local_refuse (operation : String) : Local (refuse operation : Read α) :=
  local_get_bind (fun h => by rw [h.state_eq]) fun _ => local_throw _

theorem local_ensureOpen : Local ensureOpen := by
  intro B hB r q h
  refine follows_get_bind ?_
  rw [hB.isClosed_eq h]
  exact local_ite (local_throw _) (local_pure _) hB h

theorem local_offset : Local offset := local_get_bind (fun h => by rw [h.position_eq]) fun _ => local_pure _

end Read

end Aggregation.Wire
