import Aggregation.Proofs.Wire.Shortage
import Mathlib.Data.List.Induction

/-! How documents end. A call that fails may leave a reader where the document is never completed, whatever is called
later. And where a container is left, its terminator has been read while it was the innermost one, unless what was in
it has been left with a wrong length. -/

namespace Aggregation.Wire

open Stepping

theorem Report.eq_of_called_error? {call : Call} {result : Except WireError call.Result} {e : WireError}
    (h : (called call result).error? = some e) : result = .error e := by
  cases result with
  | error e' => rw [Option.some.inj h]
  | ok a => cases h

theorem Report.exists_of_called_error? (call : Call) {result : Except WireError call.Result}
    (h : (called call result).error? = none) : ∃ a, result = .ok a := by
  cases result with
  | error e => cases h
  | ok a => exact ⟨a, rfl⟩

/-- Code with a scope is open whose scope has not been entered, and may not be entered either. -/
def Frame.Orphaned (enters : Prop) : List Frame → Prop
  | [] => False
  | frame :: frames => frame.kind = .scopedCode ∧ ¬enters ∨ Orphaned (frame.kind = .scopeDocument) frames

theorem Frame.Orphaned.mono {p q : Prop} {frames : List Frame} (h : Orphaned q frames) (hpq : p → q) :
    Orphaned p frames := by
  cases frames with
  | nil => exact h
  | cons frame frames => exact h.imp_left fun hcode => ⟨hcode.1, fun hp => hcode.2 (hpq hp)⟩

namespace Reader

namespace Face

variable {feed : Feed} {f g : Face} {report : Report} {e : WireError}

/-- How a call that fails can leave a reader for good: from a face, with an error, at another face, over a number of
bytes in all. -/
inductive DeadEnd (length : Nat) (f : Face) (e : WireError) (g : Face) : Prop
  /-- A terminator has been read, and it is none of the innermost container. -/
  | unclosable (hend : g.AtEnd) (hclose : ¬g.MayClose)
  /-- Code with a scope has been entered, and the code could not be read. -/
  | abandoned (hentered : f.frames.length < g.frames.length)
  /-- The bytes ran out before one was taken. -/
  | starved {offset : Nat} (herror : e = .unexpectedEnd offset) (hstill : g.position = f.position)
  /-- All bytes have been taken, and the last was no terminator. -/
  | exhausted (hnot : ¬g.AtEnd) (hposition : g.position = length)

/-- Nothing is open before the first document and after a completed one. -/
def Placed (f : Face) : Prop := f.state = .initial ∨ f.state = .done → f.frames = []

theorem placed_of_state (h : f.state ≠ .initial ∧ f.state ≠ .done) : f.Placed :=
  fun hstate => hstate.elim (absurd · h.1) (absurd · h.2)

theorem Placed.state_ne (h : f.Placed) (hopen : f.frames ≠ []) : f.state ≠ .initial ∧ f.state ≠ .done :=
  ⟨fun hstate => hopen (h (.inl hstate)), fun hstate => hopen (h (.inr hstate))⟩

theorem Follows.placed (h : f.Follows) : f.Placed := by
  rw [Follows] at h
  split at h
  · next hnil => exact fun _ => hnil
  · exact placed_of_state (by rw [h]; decide)

theorem AtEnd.state_ne (h : f.AtEnd) {state : ReaderState} (hdocument : state ≠ .endOfDocument)
    (harray : state ≠ .endOfArray) : f.state ≠ state := by
  rintro rfl
  exact h.elim hdocument harray

theorem AtEnd.placed (h : f.AtEnd) : f.Placed := placed_of_state ⟨h.state_ne nofun nofun, h.state_ne nofun nofun⟩

theorem Follows.state_ne (h : f.Follows) {state : ReaderState} (hdone : state ≠ .done) (htype : state ≠ .type) :
    f.state ≠ state := by
  rw [Follows] at h
  split at h <;> rw [h]
  · exact hdone.symm
  · exact htype.symm

theorem Follows.not_atEnd (h : f.Follows) : ¬f.AtEnd :=
  not_atEnd_of ⟨h.state_ne nofun nofun, h.state_ne nofun nofun⟩

theorem MayClose.atEnd (h : f.MayClose) : f.AtEnd := by
  obtain ⟨frame, frames, -, hcloses⟩ := h
  cases hstate : f.state with
  | endOfDocument => exact .inl hstate
  | endOfArray => exact .inr hstate
  | _ =>
      rw [hstate] at hcloses
      exact hcloses.elim

theorem Placed.moves (h : f.Placed) (hmoves : Moves feed f report g) : g.Placed := by
  cases hmoves with
  | stays hstate hframes =>
      intro hg
      rw [hstate] at hg
      rw [hframes, h hg]
  | passes hfrom hstate hframes => rcases hstate with hstate | hstate <;> exact placed_of_state (by rw [hstate]; decide)
  | follows hfrom hfollows hframes => exact hfollows.placed
  | terminates hfrom hbyte hend hframes => exact hend.placed
  | counts hfrom hold harray hstate hframes =>
      rcases hstate with hstate | hstate <;> exact placed_of_state (by rw [hstate]; decide)
  | enters hfrom hreport hscope hstate hframes => exact placed_of_state (by rw [hstate]; decide)
  | entersCode hfrom hkind hstate hframes =>
      rcases hstate with hstate | ⟨-, hstate⟩ <;> exact placed_of_state (by rw [hstate]; decide)
  | leaves hmay hgone hframes hend =>
      rcases hend with ⟨-, hfollows⟩ | ⟨hstate, -⟩
      · exact hfollows.placed
      · exact AtEnd.placed (hmay.atEnd.imp hstate.trans hstate.trans)

/-! ## Dead ends -/

/-- From a terminator that closes nothing there is no way. -/
theorem Moves.stays_of_unclosable (hmoves : Moves feed f report g) (hend : f.AtEnd) (hclose : ¬f.MayClose) :
    g.state = f.state ∧ g.frames = f.frames := by
  cases hmoves with
  | stays hstate hframes => exact ⟨hstate, hframes⟩
  | passes hfrom => exact absurd hend hfrom
  | follows hfrom => exact absurd hfrom (hend.state_ne nofun nofun)
  | terminates hfrom => exact absurd hfrom (hend.state_ne nofun nofun)
  | counts hfrom => exact absurd hfrom (hend.state_ne nofun nofun)
  | enters hfrom => exact absurd hend hfrom
  | entersCode hfrom => exact absurd hfrom (hend.state_ne nofun nofun)
  | leaves hmay => exact absurd hmay hclose

/-- Code with a scope without its scope is open. -/
def HasOrphan (f : Face) : Prop := Frame.Orphaned (f.state = .scopeDocument) f.frames

theorem HasOrphan.frames_ne (h : f.HasOrphan) : f.frames ≠ [] := by
  intro hnil
  rw [HasOrphan, hnil] at h
  exact h

theorem HasOrphan.of_state {p : Prop} (hstate : g.state ≠ .scopeDocument) (h : Frame.Orphaned p g.frames) :
    g.HasOrphan :=
  h.mono fun hscope => absurd hscope hstate

/-- Nothing leads out of code without its scope: the scope alone is left together with it. -/
theorem HasOrphan.moves (h : f.HasOrphan) (hmoves : Moves feed f report g) : g.HasOrphan := by
  have hkept (hframes : g.frames = f.frames) (hstate : g.state ≠ .scopeDocument) : g.HasOrphan := by
    rw [HasOrphan, ← hframes] at h
    exact .of_state hstate h
  cases hmoves with
  | stays hstate hframes => rwa [HasOrphan, hstate, hframes]
  | passes hfrom hstate hframes => rcases hstate with hstate | hstate <;> exact hkept hframes (by rw [hstate]; decide)
  | follows hfrom hfollows hframes =>
      exact hkept hframes (hfollows.state_ne nofun nofun)
  | terminates hfrom hbyte hend hframes => exact hkept hframes (hend.state_ne nofun nofun)
  | counts hfrom hold harray hstate hframes =>
      rw [HasOrphan, hold] at h
      rw [HasOrphan, hframes]
      exact .inr (h.resolve_left fun hcode => absurd (harray.symm.trans hcode.1) nofun)
  | enters hfrom hreport hscope hstate hframes =>
      rw [HasOrphan, hframes]
      exact .inr (h.mono hscope)
  | entersCode hfrom hkind hstate hframes =>
      rw [HasOrphan, hframes]
      exact .inr (h.mono fun hscope => absurd (hkind.symm.trans hscope) nofun)
  | @leaves _ _ gone hmay hgone hframes hend =>
      have hstate : g.state ≠ .scopeDocument := by
        rcases hend with ⟨-, hfollows⟩ | ⟨hstate, -⟩
        · exact hfollows.state_ne nofun nofun
        · rw [hstate]
          exact hmay.atEnd.state_ne nofun nofun
      rw [HasOrphan, hframes] at h
      match gone, hgone with
      | [frame], hkind =>
          obtain ⟨hcode, -⟩ | hrest := h
          · exact absurd hcode hkind
          · exact .of_state hstate hrest
      | [frame, around], hkind =>
          obtain ⟨hcode, -⟩ | ⟨-, hnot⟩ | hrest := h
          · exact absurd (hkind.symm.trans hcode) nofun
          · exact absurd hkind hnot
          · exact .of_state hstate hrest

/-- A container is entered for nothing only by code with a scope. -/
theorem Moves.hasOrphan (hmoves : Moves feed f report g) (herror : report.error? = some e)
    (hentered : f.frames.length < g.frames.length) : g.HasOrphan := by
  cases hmoves with
  | entersCode hfrom hkind hstate hframes =>
      rcases hstate with hstate | ⟨hnone, -⟩
      · rw [HasOrphan, hframes]
        exact .inl ⟨hkind, by rw [hstate]; decide⟩
      · rw [hnone] at herror
        cases herror
  | enters hfrom hreport =>
      rw [hreport] at herror
      cases herror
  | stays hstate hframes | passes hfrom hstate hframes | follows hfrom hfollows hframes
  | terminates hfrom hbyte hend hframes =>
      rw [hframes] at hentered
      exact absurd hentered (Nat.lt_irrefl _)
  | counts hfrom hold harray hstate hframes =>
      rw [hframes, hold] at hentered
      exact absurd hentered (Nat.lt_irrefl _)
  | leaves hmay hgone hframes =>
      rw [hframes, List.length_append] at hentered
      omega

/-- No terminator is read any more, and something is open. -/
def Stranded (length : Nat) (f : Face) : Prop := f.position = length ∧ ¬f.AtEnd ∧ f.frames ≠ []

theorem Stranded.moves (h : f.Stranded feed.bytes.length) (hmoves : Moves feed f report g)
    (hposition : g.position = feed.bytes.length) : g.Stranded feed.bytes.length := by
  obtain ⟨hlast, hnot, hopen⟩ := h
  refine ⟨hposition, ?_⟩
  cases hmoves with
  | stays hstate hframes =>
      rw [AtEnd, hstate, hframes]
      exact ⟨hnot, hopen⟩
  | passes hfrom hstate hframes =>
      rcases hstate with hstate | hstate <;> exact ⟨not_atEnd_of (by rw [hstate]; decide), hframes ▸ hopen⟩
  | follows hfrom hfollows hframes => exact ⟨hfollows.not_atEnd, hframes ▸ hopen⟩
  | terminates hfrom hbyte hend hframes =>
      rw [hlast, List.getElem?_eq_none (Nat.le_refl _)] at hbyte
      cases hbyte
  | counts hfrom hold harray hstate hframes =>
      rcases hstate with hstate | hstate <;>
        exact ⟨not_atEnd_of (by rw [hstate]; decide), by rw [hframes]; exact List.cons_ne_nil _ _⟩
  | enters hfrom hreport hscope hstate hframes =>
      exact ⟨not_atEnd_of (by rw [hstate]; decide), by rw [hframes]; exact List.cons_ne_nil _ _⟩
  | entersCode hfrom hkind hstate hframes =>
      rcases hstate with hstate | ⟨-, hstate⟩ <;>
        exact ⟨not_atEnd_of (by rw [hstate]; decide), by rw [hframes]; exact List.cons_ne_nil _ _⟩
  | leaves hmay => exact absurd hmay.atEnd hnot

/-- What fails without a terminator leaves nothing. -/
theorem Moves.frames_ne (hmoves : Moves feed f report g) (herror : report.error? = some e) (hopen : f.frames ≠ [])
    (hnot : ¬g.AtEnd) : g.frames ≠ [] := by
  cases hmoves with
  | stays hstate hframes | passes hfrom hstate hframes | follows hfrom hfollows hframes
  | terminates hfrom hbyte hend hframes => rwa [hframes]
  | counts hfrom hold harray hstate hframes | enters hfrom hreport hscope hstate hframes
  | entersCode hfrom hkind hstate hframes =>
      rw [hframes]
      exact List.cons_ne_nil _ _
  | leaves hmay hgone hframes hend =>
      rcases hend with ⟨hnone, -⟩ | ⟨hstate, -⟩
      · rw [hnone] at herror
        cases herror
      · exact absurd (hmay.atEnd.imp hstate.trans hstate.trans) hnot

end Face

open Face

variable {o : Opening} {pins : List Pin × Nat} {r : Reader} {P : Face → Prop}

/-- No call goes back, or past the last byte. -/
theorem past_call (h : r.Over o pins) (call : Call) :
    Past o.feed r.position (call.read.run.run r).2 (call.read.run.run r).2 :=
  call.steady_read.advances _ _ _ (past_self h.window h.state_ne)

theorem moves_call (h : r.Over o pins) (call : Call) :
    r.face.Moves o.feed (.called call (call.read.run.run r).1) (call.read.run.run r).2.face := by
  obtain ⟨hok, herror⟩ := leads h call r rfl
  rcases hrun : call.read.run.run r with ⟨e | a, t⟩
  · exact herror e t hrun
  · exact hok a t hrun

/-- Faces that no call leads away from, and with none of them a document is completed. -/
structure Trap (o : Opening) (P : Face → Prop) : Prop where
  call : ∀ {pins} {r : Reader}, r.Over o pins → P r.face → ∀ call : Call, P (call.read.run.run r).2.face
  state_ne : ∀ {f : Face}, P f → f.state ≠ .done

theorem trap_unclosable (o : Opening) : Trap o fun f => f.AtEnd ∧ ¬f.MayClose where
  call := by
    rintro pins r h ⟨hend, hclose⟩ call
    obtain ⟨hstate, hframes⟩ := (moves_call h call).stays_of_unclosable hend hclose
    rw [AtEnd, MayClose, hstate, hframes]
    exact ⟨hend, hclose⟩
  state_ne h := h.1.state_ne nofun nofun

theorem trap_hasOrphan (o : Opening) : Trap o fun f => f.Placed ∧ f.HasOrphan where
  call h hp call := ⟨hp.1.moves (moves_call h call), hp.2.moves (moves_call h call)⟩
  state_ne h := (h.1.state_ne h.2.frames_ne).2

theorem trap_stranded (o : Opening) : Trap o fun f => f.Placed ∧ f.Stranded o.feed.bytes.length where
  call := by
    rintro pins r h ⟨hplaced, hstranded⟩ call
    have hmoves := moves_call h call
    have hpast := past_call h call
    have hposition : r.position = o.feed.bytes.length := hstranded.1
    exact ⟨hplaced.moves hmoves, hstranded.moves hmoves
      (Nat.le_antisymm hpast.window.position_le (hposition ▸ hpast.le_position))⟩
  state_ne h := (h.1.state_ne h.2.2.2).2

/-- Where what comes next is not there, nothing moves. -/
theorem trap_lacking (o : Opening) : Trap o fun f => f.need.IsLacking o.feed f.position ∧ f.state ≠ .done where
  call := by
    rintro pins r h ⟨hlacking, hdone⟩ call
    have hinitial : r.state ≠ .initial := by
      intro hstate
      have hneed : r.face.need = .bytes 0 := need_of_state (by rw [hstate])
      rw [hneed] at hlacking
      exact not_isLacking_zero h hlacking
    rw [(asks_read h ⟨hinitial, hdone⟩ call).rests hlacking]
    exact ⟨hlacking, hdone⟩
  state_ne h := h.2

/-- A call that fails within a document and leaves the reader at a dead end has it trapped. -/
theorem exists_trap (h : r.Over o pins) (hplaced : r.face.Placed) (hopen : r.frames ≠ []) {call : Call} {e : WireError}
    (herror : (call.read.run.run r).1 = .error e)
    (hdead : DeadEnd o.feed.bytes.length r.face e (call.read.run.run r).2.face) :
    ∃ P, Trap o P ∧ P (call.read.run.run r).2.face := by
  have hmoves := moves_call h call
  rw [herror] at hmoves
  have hplaced' := hplaced.moves hmoves
  cases hdead with
  | unclosable hend hclose => exact ⟨_, trap_unclosable o, hend, hclose⟩
  | abandoned hentered => exact ⟨_, trap_hasOrphan o, hplaced', hmoves.hasOrphan rfl hentered⟩
  | exhausted hnot hposition =>
      exact ⟨_, trap_stranded o, hplaced', hposition, hnot, hmoves.frames_ne rfl hopen hnot⟩
  | @starved offset hshort hstill =>
      have hinside := hplaced.state_ne hopen
      have hasks := asks_read h hinside call
      have hlacking := hasks.lacking offset (hshort ▸ herror) hstill
      refine ⟨_, trap_lacking o, ?_⟩
      rw [hasks.rests hlacking]
      exact ⟨hlacking, hinside.2⟩

end Reader

namespace Client

open Reader Face

variable {o : Opening} {c start : Client} {P : Face → Prop} {before : List Operation} {f : Face}

/-- A client stays in a trap as long as it does not return to a bookmark. -/
theorem trapped (htrap : Trap o P) (hc : c.Sound o) (hp : P c.reader.face) {later : List Operation}
    (hlater : ∀ slot, .returnTo slot ∉ later) : P (c.run later).2.reader.face := by
  induction later generalizing c with
  | nil => exact hp
  | cons operation later ih =>
      have hkept : P (c.step operation).2.reader.face := by
        cases operation with
        | call call => exact htrap.call hc.reader_over hp call
        | take slot =>
            obtain ⟨d, hstep, -, -, hface⟩ := step_take hc slot
            rwa [hstep, hface]
        | returnTo slot => exact absurd List.mem_cons_self (hlater slot)
        | drop slot => exact (drop_face c slot).symm ▸ hp
      exact ih (hc.step operation) hkept fun slot hmem => hlater slot (List.mem_cons_of_mem _ hmem)

theorem run_append (c : Client) (xs ys : List Operation) :
    c.run (xs ++ ys) = ((c.run xs).1 ++ ((c.run xs).2.run ys).1, ((c.run xs).2.run ys).2) := by
  induction xs generalizing c with
  | nil => rfl
  | cons x xs ih => simp only [List.cons_append, run, ih]

/-! ## Terminators -/

/-- Among the operations of a client is one that read the terminator of what is innermost of certain containers. It was
innermost then too, unless one of the operations after that has told that a length was wrong. -/
def Terminated (feed : Feed) (start : Client) (before : List Operation) (frames : List Frame) : Prop :=
  ∃ first later inner d, before = first ++ .call .readType :: later ∧ d = (start.run first).2 ∧
    feed.bytes[d.reader.position]? = some 0 ∧
    (d.step (.call .readType)).1.report = .called .readType (.ok .endOfDocument) ∧ d.reader.frames = inner ++ frames ∧
    (inner = [] ∨ ∃ answer ∈ ((d.step (.call .readType)).2.run later).1, ∃ path declared consumed,
      answer.report.error? = some (.lengthMismatch path declared consumed))

/-- One more operation leaves no container, or tells that the length of one was wrong. -/
theorem Terminated.snoc {feed : Feed} {gone frames : List Frame} (h : Terminated feed start before (gone ++ frames))
    (operation : Operation) (hgone : gone = [] ∨ ∃ path declared consumed,
      ((start.run before).2.step operation).1.report.error? = some (.lengthMismatch path declared consumed)) :
    Terminated feed start (before ++ [operation]) frames := by
  obtain ⟨first, later, inner, d, rfl, rfl, hbyte, htold, hframes, hinner⟩ := h
  refine ⟨first, later ++ [operation], inner ++ gone, _, by rw [List.append_assoc, List.cons_append], rfl, hbyte, htold,
    by rw [hframes, List.append_assoc], ?_⟩
  rw [run_append]
  rcases hinner with rfl | ⟨answer, hanswer, hmismatch⟩
  · refine hgone.imp (fun hgone => hgone) fun ⟨path, declared, consumed, herror⟩ => ?_
    rw [run_append] at herror
    exact ⟨_, List.mem_append_right _ List.mem_cons_self, path, declared, consumed, herror⟩
  · exact .inr ⟨answer, List.mem_append_left _ hanswer, hmismatch⟩

theorem Terminated.later {feed : Feed} {frames : List Frame} (h : Terminated feed start before frames)
    (operation : Operation) : Terminated feed start (before ++ [operation]) frames := by
  rw [← List.nil_append frames] at h
  exact h.snoc operation (.inl rfl)

/-- A face that the operations of a client can lead to. -/
structure Charted (feed : Feed) (start : Client) (before : List Operation) (f : Face) : Prop where
  placed : f.Placed
  terminated : f.AtEnd → Terminated feed start before f.frames

theorem Charted.snoc {feed : Feed} (h : Charted feed start before f) (operation : Operation) :
    Charted feed start (before ++ [operation]) f :=
  ⟨h.placed, fun hend => (h.terminated hend).later operation⟩

/-- Where a terminator has been read, that was by the last call or before it. -/
theorem Charted.call (hc : c.Sound o) (hstart : c = (start.run before).2) (h : Charted o.feed start before c.reader.face)
    (call : Call) : Charted o.feed start (before ++ [.call call]) (c.step (.call call)).2.reader.face := by
  have hmoves : Moves o.feed c.reader.face (c.step (.call call)).1.report (c.step (.call call)).2.reader.face :=
    moves_call hc.reader_over call
  refine ⟨h.placed.moves hmoves, fun hend => ?_⟩
  generalize hreport : (c.step (.call call)).1.report = report at hmoves
  cases hmoves with
  | stays hstate hframes =>
      rw [hframes]
      exact (h.terminated (hend.imp hstate.symm.trans hstate.symm.trans)).later _
  | passes hfrom hstate | counts hfrom hold harray hstate =>
      rcases hstate with hstate | hstate <;> exact absurd hstate (hend.state_ne nofun nofun)
  | entersCode hfrom hkind hstate =>
      rcases hstate with hstate | ⟨-, hstate⟩ <;> exact absurd hstate (hend.state_ne nofun nofun)
  | enters hfrom hnone hscope hstate => exact absurd hstate (hend.state_ne nofun nofun)
  | follows hfrom hfollows => exact absurd hend hfollows.not_atEnd
  | terminates hfrom hbyte hend' hframes =>
      obtain rfl : call = .readType := (Report.called.inj hreport).1
      rw [hframes]
      exact ⟨before, [], [], c, rfl, hstart, hbyte, hreport, rfl, .inl rfl⟩
  | leaves hmay hgone hframes hleft =>
      rcases hleft with ⟨-, hfollows⟩ | ⟨hstate, hmismatch⟩
      · exact absurd hend hfollows.not_atEnd
      · have hterminated := h.terminated hmay.atEnd
        rw [hframes] at hterminated
        refine hterminated.snoc _ (.inr ?_)
        rw [← hstart, hreport]
        exact hmismatch

/-- The faces of a client and of its bookmarks are charted. -/
structure Surveyed (o : Opening) (start : Client) (before : List Operation) (c : Client) : Prop where
  sound : c.Sound o
  reader : Charted o.feed start before c.reader.face
  held : ∀ {slot b}, c.Owns o slot b → Charted o.feed start before b.face

theorem Surveyed.step (h : Surveyed o start before c) (hstart : c = (start.run before).2) (operation : Operation) :
    Surveyed o start (before ++ [operation]) (c.step operation).2 := by
  have hreader := h.reader.snoc operation
  cases operation with
  | call call => exact ⟨h.sound.step _, h.reader.call h.sound hstart call, fun howns => (h.held howns).snoc _⟩
  | take slot =>
      obtain ⟨d, hstep, hsound, hheld, hface⟩ := step_take h.sound slot
      rw [hstep]
      refine ⟨hsound, hface ▸ hreader, fun {slot' b} howns => ?_⟩
      obtain ⟨hslot, hserial⟩ := howns
      rw [hheld, Function.update_apply] at hslot
      split at hslot
      · cases hslot
        exact hreader
      · exact (h.held ⟨hslot, hserial⟩).snoc _
  | returnTo slot =>
      rcases hheld : c.held slot with _ | b
      · rw [step_returnTo_none hheld]
        exact ⟨h.sound, hreader, fun howns => (h.held howns).snoc _⟩
      · by_cases hserial : b.reader = o.serial
        · obtain ⟨d, hstep, hsound, hkept, hface⟩ := step_returnTo h.sound ⟨hheld, hserial⟩
          rw [hstep]
          refine ⟨hsound, hface.symm ▸ (h.held ⟨hheld, hserial⟩).snoc _, fun howns => ?_⟩
          exact (h.held ⟨hkept ▸ howns.1, howns.2⟩).snoc _
        · obtain ⟨d, hstep, hsound, hkept, hface⟩ := step_returnTo_other h.sound hheld hserial
          rw [hstep]
          exact ⟨hsound, hface ▸ hreader, fun howns => (h.held ⟨hkept ▸ howns.1, howns.2⟩).snoc _⟩
  | drop slot =>
      exact ⟨h.sound.drop slot, (drop_face c slot).symm ▸ hreader, fun howns => (h.held (owns_drop howns).2).snoc _⟩

theorem surveyed_run (source : Source) (limits : Limits) (serial : Nat) {foreign : Nat → Option Bookmark}
    (hforeign : ∀ slot b, foreign slot = some b → b.reader ≠ serial) (before : List Operation) :
    Surveyed ⟨source.feed, serial, limits⟩ (ofSource source limits serial foreign) before
      ((ofSource source limits serial foreign).run before).2 := by
  induction before using List.reverseRecOn with
  | nil =>
      have hplaced : (ofSource source limits serial foreign).reader.face.Placed := fun _ => rfl
      refine ⟨sound_ofSource source limits serial hforeign, ⟨hplaced, fun hend => ?_⟩, fun howns => ?_⟩
      · have hne : ReaderState.initial ≠ .initial := hend.state_ne nofun nofun
        exact absurd rfl hne
      · exact absurd howns.2 (hforeign _ _ howns.1)
  | append_singleton before operation ih =>
      rw [run_append]
      exact ih.step rfl operation

/-- After an error that leads to a dead end, no document is completed until a bookmark is returned to. And a document
or an array that is left is one whose terminator has been read while it was innermost, unless a wrong length has been
told since. -/
theorem errors_final (source : Source) (limits : Limits) (serial : Nat) {foreign : Nat → Option Bookmark}
    (hforeign : ∀ slot b, foreign slot = some b → b.reader ≠ serial) (before : List Operation) {start c : Client}
    (hstart : start = ofSource source limits serial foreign) (hc : c = (start.run before).2) :
    (∀ call e, c.reader.frames ≠ [] → (c.step (.call call)).1.report.error? = some e →
      DeadEnd source.content.length c.reader.face e (c.step (.call call)).2.reader.face →
      ∀ later, (∀ slot, .returnTo slot ∉ later) →
        ((c.step (.call call)).2.run later).2.reader.state ≠ .done) ∧
    ∀ call, call = .endDocument ∨ call = .endArray → (c.step (.call call)).1.report.error? = none →
      Terminated source.feed start before c.reader.frames := by
  subst hstart
  have hsurveyed := surveyed_run source limits serial hforeign before
  rw [← hc] at hsurveyed
  obtain ⟨hsound, ⟨hplaced, hterminated⟩, -⟩ := hsurveyed
  constructor
  · intro call e hopen herror hdead later hlater
    have hrun : (call.read.run.run c.reader).1 = .error e := Report.eq_of_called_error? herror
    obtain ⟨P, htrap, hp⟩ := exists_trap hsound.reader_over hplaced hopen hrun hdead
    exact htrap.state_ne (trapped htrap (hsound.step (.call call)) hp hlater)
  · rintro call (rfl | rfl) hnone
    · obtain ⟨_, hok⟩ := Report.exists_of_called_error? .endDocument hnone
      exact hterminated ((leaves_endDocument hsound.reader_over.isClosed_eq).mayClose (Prod.ext hok rfl)).atEnd
    · obtain ⟨_, hok⟩ := Report.exists_of_called_error? .endArray hnone
      exact hterminated ((leaves_endArray hsound.reader_over.isClosed_eq).mayClose (Prod.ext hok rfl)).atEnd

/-- The second of two documents is left with a wrong length and never completed; the first has been completed. -/
theorem errors_final_secondDocument :
    ∃ source start first c second d,
      source = Source.ofBytes [5, 0, 0, 0, 0, 6, 0, 0, 0, 0] 3 ∧ start = ofSource source {} 0 (fun _ => none) ∧
      first = [.call .startDocument, .call .readType] ∧ c = (start.run first).2 ∧
      second = first ++ [.call .endDocument, .call .startDocument, .call .readType] ∧ d = (start.run second).2 ∧
      ((c.step (.call .endDocument)).1.report.error? = none ∧ Terminated source.feed start first c.reader.frames) ∧
      ((d.step (.call .endDocument)).1.report.error?.isSome = true ∧
        ∀ later, (∀ slot, .returnTo slot ∉ later) →
          ((d.step (.call .endDocument)).2.run later).2.reader.state ≠ .done) := by
  have hforeign : ∀ slot b, (fun _ => none : Nat → Option Bookmark) slot = some b → b.reader ≠ 0 := nofun
  obtain ⟨source, hsource⟩ : ∃ source, source = Source.ofBytes [5, 0, 0, 0, 0, 6, 0, 0, 0, 0] 3 := ⟨_, rfl⟩
  obtain ⟨start, hstart⟩ : ∃ start, start = ofSource source {} 0 (fun _ => none) := ⟨_, rfl⟩
  obtain ⟨c, hc⟩ : ∃ c, c = (start.run [.call .startDocument, .call .readType]).2 := ⟨_, rfl⟩
  obtain ⟨d, hd⟩ : ∃ d, d = (start.run ([.call .startDocument, .call .readType] ++
    [.call .endDocument, .call .startDocument, .call .readType])).2 := ⟨_, rfl⟩
  have hends : (c.step (.call .endDocument)).1.report.error?.isNone = true := by
    rw [hc, hstart, hsource]
    decide +kernel
  have hfails : d.reader.frames ≠ [] ∧ (d.step (.call .endDocument)).1.report.error?.isSome = true ∧
      (d.step (.call .endDocument)).2.reader.face.state = .endOfDocument ∧
      (d.step (.call .endDocument)).2.reader.face.frames = [] := by
    rw [hd, hstart, hsource]
    decide +kernel
  obtain ⟨hopen, hsome, hstate, hframes⟩ := hfails
  obtain ⟨e, he⟩ := Option.isSome_iff_exists.1 hsome
  have hnone := Option.isNone_iff_eq_none.1 hends
  refine ⟨source, start, _, c, _, d, hsource, hstart, rfl, hc, rfl, hd, ⟨hnone, ?_⟩, hsome, ?_⟩
  · exact (errors_final source {} 0 hforeign _ hstart hc).2 .endDocument (.inl rfl) hnone
  · refine (errors_final source {} 0 hforeign _ hstart hd).1 .endDocument e hopen he (.unclosable (.inl hstate) ?_)
    rintro ⟨frame, frames, hcons, -⟩
    rw [hframes] at hcons
    cases hcons

/-- Over some bytes a call within a document fails with a code, and calls after it complete the document. -/
def Recovers (bytes : List UInt8) (before : List Call) (call : Call) (code : String) (later : List Call) : Prop :=
  let c := ((ofSource (.ofBytes bytes) {} 0 fun _ => none).run (before.map .call)).2
  c.reader.frames ≠ [] ∧ (c.step (.call call)).1.report.error?.map WireError.code = some code ∧
    ((c.step (.call call)).2.run (later.map .call)).2.reader.state = .done

instance (bytes before call code later) : Decidable (Recovers bytes before call code later) :=
  inferInstanceAs (Decidable (_ ∧ _ ∧ _))

/-- Each of these errors can be told in a document that is completed nonetheless. A document that is left with a wrong
length hands on its terminator: the outer one is closed by it, and at no time was the next byte to be read there a
terminator of its own. -/
theorem recovers_from_errors :
    (Recovers [8, 0, 0, 0, 0xF0, 97, 0, 0] [.startDocument] .readType "DOCPIPE_BSON_UNKNOWN_TYPE"
        [.readType, .endDocument] ∧
      Recovers [12, 0, 0, 0, 3, 97, 0, 6, 0, 0, 0, 0]
        [.startDocument, .readType, .readName, .startDocument, .readType] .endDocument "DOCPIPE_BSON_LENGTH_MISMATCH"
        [.endDocument] ∧
      Recovers [17, 0, 0, 0, 2, 115, 0, 0, 0, 0, 0, 1, 0, 0, 0, 0, 0] [.startDocument, .readType, .readName] .readString
        "DOCPIPE_BSON_INVALID_LENGTH" [.readString, .readType, .endDocument] ∧
      Recovers [10, 0, 0, 0, 8, 98, 0, 2, 1, 0] [.startDocument, .readType, .readName] .readBoolean
        "DOCPIPE_BSON_MALFORMED_VALUE" [.readBoolean, .readType, .endDocument] ∧
      Recovers [17, 0, 0, 0, 2, 115, 0, 9, 0, 0, 0, 1, 0, 0, 0, 0, 0] [.startDocument, .readType, .readName] .readString
        "DOCPIPE_BSON_UNEXPECTED_EOF" [.readString, .readType, .endDocument]) ∧
    ∃ bytes start before c,
      bytes = [12, 0, 0, 0, 3, 97, 0, 6, 0, 0, 0, 0] ∧ start = ofSource (.ofBytes bytes) {} 0 (fun _ => none) ∧
      before = [.call .startDocument, .call .readType, .call .readName, .call .startDocument, .call .readType,
        .call .endDocument] ∧
      c = (start.run before).2 ∧ (c.step (.call .endDocument)).1.report.error?.isNone = true ∧
      ∀ first ∈ before.inits, (start.run first).2.reader.frames = c.reader.frames →
        (start.run first).2.reader.state = .type → bytes[(start.run first).2.reader.position]? ≠ some 0 := by
  refine ⟨by decide +kernel, _, _, _, _, rfl, rfl, rfl, rfl, ?_⟩
  decide +kernel

end Client

end Aggregation.Wire
