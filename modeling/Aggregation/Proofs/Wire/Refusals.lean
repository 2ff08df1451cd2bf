import Aggregation.Proofs.Wire.Transports
import Aggregation.Proofs.Wire.Outcomes

/-! Errors of usage. What a reader refuses leaves it where it was, and so does a whole document or value that is
refused: once its first step has succeeded, everything that can still go wrong is for good. -/

namespace Aggregation.Wire

open Stepping

open Reader Read in
/-- A call that reads a value at once begins it, reads its payload and ends it. -/
theorem Call.exists_scalar {call : Call} {type : ElementType} (h : call.expects = some type) :
    ∃ operation, ∃ payload : Read call.Result, call.read = readScalar operation type payload ∧ Draws payload := by
  cases call <;> cases h
  case readDouble | readTimestamp =>
    exact ⟨_, _, rfl, (draws_onInput (Replay.draws_natural 8)).bind fun _ => draws_pure _⟩
  case readString | readJavaScript | readSymbol => exact ⟨_, _, rfl, draws_stringPayload⟩
  case readBinary => exact ⟨_, _, rfl, draws_binaryPayload⟩
  case readUndefined | readNull | readMinKey | readMaxKey => exact ⟨_, _, rfl, draws_pure _⟩
  case readObjectId => exact ⟨_, _, rfl, draws_objectIdPayload⟩
  case readBoolean => exact ⟨_, _, rfl, draws_booleanPayload⟩
  case readDateTime | readInt64 => exact ⟨_, _, rfl, draws_onInput Replay.draws_int64⟩
  case readRegularExpression =>
    exact ⟨_, _, rfl, draws_regexPart.bind fun _ => draws_regexPart.bind fun _ => draws_pure _⟩
  case readDbPointer =>
    exact ⟨_, _, rfl, draws_stringPayload.bind fun _ => draws_objectIdPayload.bind fun _ => draws_pure _⟩
  case readInt32 => exact ⟨_, _, rfl, draws_onInput Replay.draws_int32⟩
  case readDecimal128 => exact ⟨_, _, rfl, draws_decimal128Payload⟩

namespace Reader

open Read

/-- Whatever else may be left behind by a call that fails, an error that is for good and a coherent reader may. -/
def Permits (E : WireError → Reader → Prop) : Prop := ∀ e t, e.isFatal = true → t.Coherent → E e t

variable {r t : Reader} {E : WireError → Reader → Prop} {fuel : Nat}

theorem Permits.bears (hE : Permits E) (hr : r.Coherent) : Bears E r := by
  refine fun e t he hframes hstate => hE e t he fun htype => ?_
  rw [hframes]
  exact hr (hstate.symm.trans htype)

/-- Containers that may be left are coherent, whether they are left or not. -/
theorem Permits.notLeft (hE : Permits E) (hr : r.Coherent) {e : WireError} (h : NotLeft r e t) : E e t := by
  cases h with
  | refused => exact hE _ _ rfl hr
  | mismatched hleft hstate =>
      refine hE _ _ rfl (coherent_of_state fun htype => ?_)
      obtain ⟨frame, frames, -, hcloses⟩ := hleft.mayClose
      have hfrom : r.face.state = .type := hstate.symm.trans htype
      rw [hfrom] at hcloses
      exact hcloses

/-- What is left of a container that has been left as a value. -/
theorem LeftWhole.stands (h : LeftWhole r t) : Stands (left r.kinds) (following (left r.kinds)) t := by
  obtain ⟨hkinds, hstands, -⟩ := h
  rw [← hkinds]
  exact hstands.stands_following

theorem ensures_leave {x : Read Unit} (hx : Ensures (· = r) x (fun _ => LeftWhole r) (NotLeft r)) (hr : r.Coherent)
    (hE : Permits E) : Ensures (· = r) x (fun _ => Stands (left r.kinds) (following (left r.kinds))) E :=
  (hx.mono (fun _ h => h) fun _ _ => LeftWhole.stands).mono_error fun _ _ => hE.notLeft hr

/-- After a name comes the value. -/
def Named (r t : Reader) : Prop := Stands r.kinds .value t ∧ t.currentType = r.currentType

theorem NameRead.named (h : NameRead r t) : Named r t := ⟨h.stands, h.currentType_eq⟩

/-! ## Whole values -/

/-- Where a value of a type comes next. -/
def Awaits (r : Reader) (type : ElementType) : Prop :=
  r.state = .value ∧ r.currentType = some type ∧ type ≠ .endOfDocument

/-- What the readers of a bounded number of steps do: refuse where they do not apply, and else fail only for good. -/
structure Whole (fuel : Nat) : Prop where
  value : ∀ {r : Reader} {E : WireError → Reader → Prop} (type : ElementType), r.isClosed = false → r.Coherent →
    Permits E → (r.Awaits type ∨ ∀ e, E e r) →
      Ensures (· = r) (readValueWithin fuel type) (fun _ => Stands r.outer (following r.outer)) E
  document : ∀ {r : Reader} {E : WireError → Reader → Prop}, r.isClosed = false → r.Coherent → Permits E →
    (r.MayEnter r.entering ∨ ∀ e, E e r) →
      Ensures (· = r) (readDocumentWithin fuel) (fun _ => Stands r.outer (following r.outer)) E
  fields : ∀ {r : Reader} {E : WireError → Reader → Prop} (d : Document), r.isClosed = false → r.Coherent →
    Permits E → r.state = .type →
      Ensures (· = r) (readFieldsWithin fuel d) (fun _ => Stands r.kinds (terminated r.kinds)) E
  array : ∀ {r : Reader} {E : WireError → Reader → Prop}, r.isClosed = false → r.Coherent → Permits E →
    (r.state = .value ∧ r.currentType = some .array ∨ ∀ e, E e r) →
      Ensures (· = r) (readArrayWithin fuel) (fun _ => Stands r.outer (following r.outer)) E
  items : ∀ {r : Reader} {E : WireError → Reader → Prop}, r.isClosed = false → r.Coherent → Permits E →
    r.state = .type → Ensures (· = r) (readItemsWithin fuel) (fun _ => Stands r.kinds (terminated r.kinds)) E

theorem terminated_ne_closed (ks : List FrameKind) : terminated ks ≠ .closed := by
  rw [terminated]
  split <;> decide

/-- What is made of a value that has been read is where the value was. -/
theorem ensures_map {α β : Type} {x : Read α} {Q : Reader → Prop} (hx : Ensures (· = r) x (fun _ => Q) E) (g : α → β) :
    Ensures (· = r) (do return g (← x)) (fun _ => Q) E :=
  hx.bind fun _ => ensures_pure fun _ h => h

theorem Whole.readDocument (h : Whole fuel) (hopen : r.isClosed = false) (hr : r.Coherent) (hE : Permits E)
    (hguard : r.MayEnter r.entering ∨ ∀ e, E e r) :
    Ensures (· = r) (readDocumentWithin (fuel + 1)) (fun _ => Stands r.outer (following r.outer)) E := by
  rw [readDocumentWithin]
  refine (ensures_startDocument hopen (hE.bears hr) hguard).bind fun _ => ensures_of_eq fun s hentered => ?_
  have hs := hentered.2.stands
  have hcoherent : s.Coherent := hs.coherent fun _ => List.cons_ne_nil _ _
  have hopen' : s.isClosed = false := hs.isClosed_eq (by decide)
  refine (h.fields .empty hopen' hcoherent hE hs.state_eq).bind fun d => ensures_of_eq fun t ht => ?_
  rw [hs.kinds_eq] at ht
  have hend := ensures_leave (ensures_endDocument (ht.isClosed_eq (terminated_ne_closed _)))
    (ht.coherent fun _ => List.cons_ne_nil _ _) hE
  rw [ht.kinds_eq] at hend
  exact hend.bind fun _ => ensures_pure fun _ h => h

theorem Whole.readArray (h : Whole fuel) (hopen : r.isClosed = false) (hr : r.Coherent) (hE : Permits E)
    (hguard : r.state = .value ∧ r.currentType = some .array ∨ ∀ e, E e r) :
    Ensures (· = r) (readArrayWithin (fuel + 1)) (fun _ => Stands r.outer (following r.outer)) E := by
  rw [readArrayWithin]
  refine (ensures_startArray hopen (hE.bears hr) hguard).bind fun _ => ensures_of_eq fun s hentered => ?_
  have hs := hentered.2.stands
  have hcoherent : s.Coherent := hs.coherent fun _ => List.cons_ne_nil _ _
  refine (h.items (hs.isClosed_eq (by decide)) hcoherent hE hs.state_eq).bind fun items => ensures_of_eq fun t ht => ?_
  rw [hs.kinds_eq] at ht
  have hend := ensures_leave (ensures_endArray (ht.isClosed_eq (terminated_ne_closed _)))
    (ht.coherent fun _ => List.cons_ne_nil _ _) hE
  rw [ht.kinds_eq] at hend
  rw [outer_of_value hentered.1]
  exact hend.bind fun _ => ensures_pure fun _ h => h

/-- What is read of an element once its name has been passed, up to the next element. -/
theorem Whole.readNamed (h : Whole fuel) {type : ElementType} {s t : Reader} (hE : Permits E) (hr : r.kinds ≠ [])
    (hs : Stands r.kinds .name s) (htype : s.currentType = some type) (hne : type ≠ .endOfDocument)
    (ht : Named s t) : Ensures (· = t) (readValueWithin fuel type) (fun _ => Stands r.kinds .type) E := by
  obtain ⟨hstands, hcurrent⟩ := ht
  rw [hs.kinds_eq] at hstands
  have hvalue := h.value type (hstands.isClosed_eq nofun) (hstands.coherent_of_ne (by decide)) hE
    (.inl ⟨hstands.state_eq, hcurrent.trans htype, hne⟩)
  rwa [outer_of_value hstands.state_eq, hstands.kinds_eq, following, if_neg hr] at hvalue

theorem kinds_ne_nil (hr : r.Coherent) (hstate : r.state = .type) : r.kinds ≠ [] := fun hnil =>
  hr hstate (List.map_eq_nil_iff.1 hnil)

/-- An element is looked for in a container, or refused. -/
theorem ensures_look (hopen : r.isClosed = false) (hr : r.Coherent) (hE : Permits E)
    (hguard : r.state = .type ∨ ∀ e, E e r) : Ensures (· = r) readType (Looked (fun _ => True) r) E := by
  have hbears := hE.bears hr
  have hbyte := ensures_self (isReleased_of_open hopen) (ensures_draws (draws_onInput Replay.draws_byte) hbears)
  refine ensures_readType hopen (hbyte.mono (fun _ h => h) fun _ _ h => ⟨h, trivial⟩) (fun hstate => ?_) ?_ hguard
  · refine hE.bears fun _ (hnil : counted r.frames = []) => hr hstate ?_
    rw [← List.map_eq_nil_iff (f := Frame.kind), ← kinds_counted, hnil, List.map_nil]
  · exact fun hstate hnil => absurd hnil (hr hstate)

/-- The tag of an element is read, and what follows is the end or the element. -/
theorem ensures_tag {β : Type} {Q : β → Reader → Prop} (hopen : r.isClosed = false) (hr : r.Coherent) (hE : Permits E)
    (hstate : r.state = .type) {k : ElementType → Read β}
    (hend : Ensures (Stands r.kinds (terminated r.kinds)) (k .endOfDocument) Q E)
    (helement : ∀ type s, type ≠ .endOfDocument → Stands r.kinds .name s → s.currentType = some type →
      Ensures (· = s) (k type) Q E) :
    Ensures (· = r) (readType >>= k) Q E := by
  refine (ensures_look hopen hr hE (.inl hstate)).bind fun type => ensures_of_eq fun s hs => ?_
  cases hs with
  | top hfrom => rcases hfrom with hfrom | hfrom <;> rw [hfrom] at hstate <;> cases hstate
  | ends _ _ h => exact hend.mono (fun _ ht => ht ▸ h.stands) fun _ _ h => h
  | finds _ htype h hcurrent => exact helement type s htype h.stands_counted hcurrent

theorem Whole.readFields (h : Whole fuel) (d : Document) (hopen : r.isClosed = false) (hr : r.Coherent)
    (hE : Permits E) (hstate : r.state = .type) :
    Ensures (· = r) (readFieldsWithin (fuel + 1) d) (fun _ => Stands r.kinds (terminated r.kinds)) E := by
  have hkinds := kinds_ne_nil hr hstate
  rw [readFieldsWithin]
  refine Ensures.bind (Q := fun _ t => t = r) (ensures_get_bind fun s hs => ensures_pure fun t ht => ht.trans hs)
    fun start => ?_
  refine ensures_tag hopen hr hE hstate (ensures_pure fun _ ht => ht) fun type s htype hs hcurrent => ?_
  rw [if_neg htype]
  have hopen' : s.isClosed = false := hs.isClosed_eq (by decide)
  have hcoherent : s.Coherent := hs.coherent_of_ne (by decide)
  refine (ensures_readName hopen' (hE.bears hcoherent) (.inl hs.state_eq)).bind fun name => ?_
  refine ensures_of_eq fun t ht => ensures_check (fun _ => ensures_lose (hE.bears ?_) rfl) fun _ => ?_
  · exact ht.stands.coherent_of_ne (by decide)
  · refine (h.readNamed hE hkinds hs hcurrent htype ht.named).bind fun value => ensures_of_eq fun u hu => ?_
    have hrest :=
      h.fields (d.insert name value) (hu.isClosed_eq (by decide)) (hu.coherent fun _ => hkinds) hE hu.state_eq
    rwa [hu.kinds_eq] at hrest

theorem Whole.readItems (h : Whole fuel) (hopen : r.isClosed = false) (hr : r.Coherent) (hE : Permits E)
    (hstate : r.state = .type) :
    Ensures (· = r) (readItemsWithin (fuel + 1)) (fun _ => Stands r.kinds (terminated r.kinds)) E := by
  have hkinds := kinds_ne_nil hr hstate
  rw [readItemsWithin]
  refine ensures_tag hopen hr hE hstate (ensures_pure fun _ ht => ht) fun type s htype hs hcurrent => ?_
  rw [if_neg htype]
  have hopen' : s.isClosed = false := hs.isClosed_eq (by decide)
  have hcoherent : s.Coherent := hs.coherent_of_ne (by decide)
  refine (ensures_skipName hopen' (hE.bears hcoherent) (.inl hs.state_eq)).bind fun _ => ?_
  refine ensures_of_eq fun t ht => ?_
  refine (h.readNamed hE hkinds hs hcurrent htype ht.named).bind fun item => ensures_of_eq fun u hu => ?_
  have hrest := h.items (hu.isClosed_eq (by decide)) (hu.coherent fun _ => hkinds) hE hu.state_eq
  rw [hu.kinds_eq] at hrest
  exact hrest.bind fun _ => ensures_pure fun _ h => h

/-- A value that is read at once. -/
theorem ensures_call {call : Call} {type : ElementType} (htype : call.expects = some type) (hopen : r.isClosed = false)
    (hr : r.Coherent) (hE : Permits E) (hguard : r.state = .value ∧ r.currentType = some type ∨ ∀ e, E e r) :
    Ensures (· = r) call.read (fun _ => Stands r.outer (following r.outer)) E := by
  obtain ⟨operation, payload, hread, hpayload⟩ := call.exists_scalar htype
  rw [hread]
  refine (ensures_readScalar hpayload hopen (hE.bears hr) hguard).mono (fun _ h => h) fun _ _ h => ?_
  rw [outer_of_value h.1]
  exact h.2.stands_following

theorem Whole.readValue (h : Whole fuel) (type : ElementType) (hopen : r.isClosed = false) (hr : r.Coherent)
    (hE : Permits E) (hguard : r.Awaits type ∨ ∀ e, E e r) :
    Ensures (· = r) (readValueWithin (fuel + 1) type) (fun _ => Stands r.outer (following r.outer)) E := by
  have hbegin := hguard.imp_left fun h => (⟨h.1, h.2.1⟩ : r.state = .value ∧ r.currentType = some type)
  rcases exists_readsBy_or type with ⟨call, k, hreads⟩ | rfl | rfl | rfl | rfl
  · rw [hreads.read_eq]
    exact ensures_map (ensures_call hreads.expects_eq hopen hr hE hbegin) k
  · refine ensures_map (h.document hopen hr hE (hguard.imp_left fun hawaits => ?_)) Value.document
    have hentering : r.entering = .document := if_neg (by rw [hawaits.1]; decide)
    exact .inr (.inr ⟨hawaits.1, hawaits.2.1, hentering⟩)
  · exact ensures_map (h.array hopen hr hE hbegin) Value.array
  · refine (ensures_readScopedCode hopen (hE.bears hr) (fun _ s hs => ?_) hbegin).bind fun code =>
      ensures_of_eq fun s hentered => ?_
    · exact hE.bears (hs.stands.coherent_of_ne (by decide))
    · have hs := hentered.2.stands
      have hentering : s.entering = .scopeDocument := if_pos hs.state_eq
      have hscope := h.document (hs.isClosed_eq (by decide)) (hs.coherent_of_ne (by decide)) hE
        (.inl (.inr (.inl ⟨hs.state_eq, hentering⟩)))
      have houter : s.outer = r.outer := by
        rw [outer, hentering, hs.kinds_eq, outer_of_value hentered.1]
        rfl
      rw [houter] at hscope
      exact ensures_map hscope (Value.scopedCode code)
  · exact ensures_throw_self hguard (fun hawaits => hawaits.2.2 rfl) _

/-- A reader that is out of steps fails as one that is out of bytes. -/
theorem ensures_outOfSteps {α : Type} {Q : α → Reader → Prop} (hopen : r.isClosed = false) (hr : r.Coherent)
    (hE : Permits E) : Ensures (· = r) (onInput Replay.outOfBytes) Q E := by
  have hdraws := ensures_self (isReleased_of_open hopen)
    (ensures_draws (draws_onInput (Replay.draws_outOfBytes (α := α))) (hE.bears hr))
  rintro s hs
  refine ⟨fun a t hrun => ?_, (hdraws s hs).2⟩
  rw [onInput_run] at hrun
  cases hrun

theorem whole (fuel : Nat) : Whole fuel := by
  induction fuel with
  | zero =>
      exact ⟨fun _ hopen hr hE _ => ensures_outOfSteps hopen hr hE, fun hopen hr hE _ => ensures_outOfSteps hopen hr hE,
        fun _ hopen hr hE _ => ensures_outOfSteps hopen hr hE, fun hopen hr hE _ => ensures_outOfSteps hopen hr hE,
        fun hopen hr hE _ => ensures_outOfSteps hopen hr hE⟩
  | succ fuel ih => exact ⟨ih.readValue, ih.readDocument, ih.readFields, ih.readArray, ih.readItems⟩

/-! ## What is left behind -/

/-- A call that fails leaves the reader coherent, and where it was unless it fails for good. -/
def Unmoved (r : Reader) (e : WireError) (t : Reader) : Prop := t.Coherent ∧ (e.isFatal = false → t = r)

theorem permits_unmoved (r : Reader) : Permits (Unmoved r) := by
  intro e t he ht
  refine ⟨ht, fun hfatal => ?_⟩
  rw [he] at hfatal
  cases hfatal

theorem unmoved_self (hr : r.Coherent) (e : WireError) : Unmoved r e r := ⟨hr, fun _ => rfl⟩

/-- What an open reader does, and where that leaves it. -/
def Settled {α : Type} (r : Reader) (x : Read α) : Prop := Ensures (· = r) x (fun _ => Coherent) (Unmoved r)

theorem settled_of_following {α : Type} {x : Read α} {ks : List FrameKind}
    (hx : Ensures (· = r) x (fun _ => Stands ks (following ks)) (Unmoved r)) : r.Settled x :=
  hx.mono (fun _ h => h) fun _ _ => following_coherent

theorem settled_of_nameRead {α : Type} {x : Read α} (hx : Ensures (· = r) x (fun _ => NameRead r) (Unmoved r)) :
    r.Settled x :=
  hx.mono (fun _ h => h) fun _ _ ht => ht.stands.coherent_of_ne (by decide)

theorem Looked.coherent {B : UInt8 → Prop} {type : ElementType} (h : Looked B r type t) : t.Coherent := by
  cases h with
  | top _ h => exact h.stands.coherent_of_ne (by decide)
  | finds _ _ h => exact h.stands.coherent_of_ne (by decide)
  | ends _ _ h =>
      refine h.stands.coherent_of_ne ?_
      rw [terminated]
      split <;> decide

theorem settled_read (hopen : r.isClosed = false) (hr : r.Coherent) (call : Call) : r.Settled call.read := by
  have hE := permits_unmoved r
  have hbears := hE.bears hr
  have hself {P : Prop} : P ∨ ∀ e, Unmoved r e r := .inr (unmoved_self hr)
  cases htype : call.expects with
  | some type => exact settled_of_following (ensures_call htype hopen hr hE hself)
  | none =>
      cases call with
      | isAtEnd =>
          refine (ensures_isAtEnd hopen hbears).mono (fun _ h => h) fun _ t ht => ?_
          obtain ⟨input, -, rfl⟩ := ht
          exact hr
      | readType => exact (ensures_look hopen hr hE hself).mono (fun _ h => h) fun _ _ => Looked.coherent
      | readName => exact settled_of_nameRead (ensures_readName hopen hbears hself)
      | expectName expected =>
          refine settled_of_nameRead (ensures_expectName hopen hbears hself (fun e t he ht => ?_) expected)
          exact hE e t he (ht.stands.coherent_of_ne (by decide))
      | skipName => exact settled_of_nameRead (ensures_skipName hopen hbears hself)
      | startDocument =>
          exact (ensures_startDocument hopen hbears hself).mono (fun _ h => h) fun _ _ h =>
            h.2.stands.coherent fun _ => List.cons_ne_nil _ _
      | endDocument => exact settled_of_following (ensures_leave (ensures_endDocument hopen) hr hE)
      | startArray =>
          exact (ensures_startArray hopen hbears hself).mono (fun _ h => h) fun _ _ h =>
            h.2.stands.coherent fun _ => List.cons_ne_nil _ _
      | endArray => exact settled_of_following (ensures_leave (ensures_endArray hopen) hr hE)
      | skipValue =>
          exact (ensures_skipValue hopen hbears (unmoved_self hr)).mono (fun _ h => h) fun _ _ h =>
            following_coherent h.2.stands_following
      | readScopedCode =>
          refine (ensures_readScopedCode hopen hbears (fun _ s hs => ?_) hself).mono (fun _ h => h) fun _ _ h => ?_
          · exact hE.bears (hs.stands.coherent_of_ne (by decide))
          · exact h.2.stands.coherent_of_ne (by decide)
      | _ => cases htype

theorem settled_readDocument (hopen : r.isClosed = false) (hr : r.Coherent) : r.Settled readDocument := by
  refine ensures_get_bind ?_
  rintro _ rfl
  exact settled_of_following ((whole _).document hopen hr (permits_unmoved _) (.inr (unmoved_self hr)))

theorem settled_readValue (hopen : r.isClosed = false) (hr : r.Coherent) (type : ElementType) :
    r.Settled (readValue type) := by
  refine ensures_get_bind ?_
  rintro _ rfl
  exact settled_of_following ((whole _).value type hopen hr (permits_unmoved _) (.inr (unmoved_self hr)))

/-! ## Logs -/

/-- Two readers that differ in their logs alone. -/
def Echoes (r q : Reader) : Prop := q = { r with log := q.log }

theorem Echoes.refl (r : Reader) : Echoes r r := rfl

variable {o : Opening} {pins : List Pin × Nat} {q : Reader}

theorem Echoes.face_eq (h : Echoes r q) : r.face = q.face := by
  rw [h]
  rfl

theorem Echoes.over (h : Echoes r q) (hr : r.Over o pins) : q.Over o pins := by
  rw [h]
  exact hr.recorded _

/-- Two open readers over the same that differ in their logs alone. -/
structure Deaf (o : Opening) (pins : List Pin × Nat) (r q : Reader) : Prop where
  left : r.Over o pins
  echoes : Echoes r q

theorem Deaf.agree (h : Deaf o pins r q) : Agree o pins pins r q := ⟨h.left, h.echoes.over h.left, h.echoes.face_eq⟩

theorem blind_deaf (o : Opening) (pins : List Pin × Nat) : Blind (Deaf o pins) where
  alike h := h.agree.alike
  state_ne h := h.left.state_ne
  left h := ⟨o.feed, h.left.window⟩
  right h := ⟨o.feed, h.agree.right.window⟩
  onInput := by
    rintro α step hstep r q h
    obtain ⟨hresult, hagree⟩ := h.agree.onInput hstep
    refine ⟨hresult, hagree.left, ?_⟩
    rw [h.echoes]
    rfl
  shows h _ hstate _ _ _ := ⟨h.left.shows hstate _ _ _, by rw [h.echoes]; rfl⟩
  record h _ := ⟨h.left.recorded _, by rw [h.echoes]; rfl⟩
  compact h := ⟨h.left.reaches h.left.window.reaches_compact, by rw [h.echoes]; rfl⟩

/-- Whether a reader goes back to a bookmark does not depend on its log. -/
theorem Echoes.returnTo (h : Echoes r q) (b : Bookmark) :
    Matches Echoes (Reader.returnTo b) (Reader.returnTo b) r q := by
  obtain ⟨log, rfl⟩ : ∃ log, q = { r with log } := ⟨_, h⟩
  by_cases hclosed : r.isClosed = true
  · rw [Matches, barred_returnTo b r hclosed, barred_returnTo b { r with log } hclosed]
    exact ⟨rfl, rfl⟩
  · have hrun (q : Reader) (hq : q.isClosed = r.isClosed) : ensureOpen.run.run q = (.ok (), q) := by
      simp only [ensureOpen, run_bind, run_get, hq, hclosed, Bool.false_eq_true, reduceIte, run_pure]
    rw [Matches, Reader.returnTo, run_bind_ok (hrun r rfl), run_bind_ok (hrun { r with log } rfl)]
    by_cases hown : b.reader = r.serial
    · rcases hrewind : r.input.rewind? b.pin.position with _ | input
      all_goals
        simp only [run_bind, run_get, hown, hrewind, ne_eq, not_true_eq_false, reduceIte]
        exact ⟨rfl, rfl⟩
    · simp only [run_bind, run_get, hown, ne_eq, not_false_eq_true, reduceIte]
      exact ⟨rfl, rfl⟩

theorem Echoes.dropBookmark (h : Echoes r q) (b : Bookmark) : Echoes (r.dropBookmark b) (q.dropBookmark b) := by
  obtain ⟨log, rfl⟩ : ∃ log, q = { r with log } := ⟨_, h⟩
  rw [Reader.dropBookmark, Reader.dropBookmark]
  split <;> rfl

theorem Coherent.of_face {t : Reader} (hr : r.Coherent) (hface : t.face = r.face) : t.Coherent := by
  have hstate : t.state = r.state := congrArg Face.state hface
  have hframes : t.frames = r.frames := congrArg Face.frames hface
  intro ht
  rw [hframes]
  exact hr (hstate ▸ ht)

end Reader

/-! ## Clients -/

/-- The error that an operation tells. -/
def Report.error? : Report → Option WireError
  | called _ (.error e) | taken (.error e) | returned (some (.error e)) => some e
  | _ => none

/-- The error that is seen of an action. -/
def Sight.error? : Sight → Option WireError
  | operated answer => answer.report.error?
  | document (.error e) _ | value (.error e) _ => some e
  | _ => none

/-- In a place to return to, too, elements are only looked for in a container. -/
def Bookmark.Coherent (b : Bookmark) : Prop := b.state = .type → b.frames ≠ []

namespace Client

variable {o : Opening} {c d : Client} {slot : Nat} {b : Bookmark}

/-- The reader and its own bookmarks that are held look for elements only in a container. -/
structure Orderly (o : Opening) (c : Client) : Prop where
  same : Same o c c
  reader_coherent : c.reader.Coherent
  held_coherent : ∀ {slot b}, c.Owns o slot b → b.Coherent

/-- Two clients that differ in the logs of their readers alone. -/
structure Echoes (o : Opening) (c d : Client) : Prop where
  same : Same o c c
  readers : Reader.Echoes c.reader d.reader
  held_eq : c.held = d.held

theorem Orderly.sound (h : c.Orderly o) (hopen : c.reader.isClosed = false) : c.Sound o := by
  obtain htwin | hshut := h.same
  · exact htwin.left
  · rw [hshut.readers.isClosed_eq.1] at hopen
    cases hopen

theorem orderly_ofSource (source : Source) (limits : Limits) (serial : Nat) {held : Nat → Option Bookmark}
    (hforeign : ∀ slot b, held slot = some b → b.reader ≠ serial) :
    (ofSource source limits serial held).Orderly ⟨source.feed, serial, limits⟩ where
  same := .inl (twin_ofSource rfl limits serial hforeign)
  reader_coherent := nofun
  held_coherent howns := absurd howns.2 (hforeign _ _ howns.1)

/-- What is read keeps a client in order, and leaves it as it was if it is refused. -/
theorem Orderly.of_settled (h : c.Orderly o) {α : Type} {e : WireError} {x : Read α} (hx : x.Steady)
    (hbar : Reader.Barred e x) (hsettled : c.reader.isClosed = false → c.reader.Settled x) :
    Orderly o { c with reader := (x.run.run c.reader).2 } ∧
      ∀ e, (x.run.run c.reader).1 = .error e → e.isFatal = false → (x.run.run c.reader).2 = c.reader := by
  have hsame := (h.same.of_steady hx hbar).2.2
  suffices hend : (x.run.run c.reader).2.Coherent ∧
      ∀ e, (x.run.run c.reader).1 = .error e → e.isFatal = false → (x.run.run c.reader).2 = c.reader from
    ⟨⟨hsame, hend.1, h.held_coherent⟩, hend.2⟩
  by_cases hclosed : c.reader.isClosed = true
  · rw [hbar c.reader hclosed]
    exact ⟨h.reader_coherent, fun _ _ _ => rfl⟩
  · obtain ⟨hok, herror⟩ := hsettled (Bool.eq_false_iff.2 hclosed) c.reader rfl
    rcases hrun : x.run.run c.reader with ⟨e | a, t⟩
    · obtain ⟨hcoherent, hunmoved⟩ := herror e t hrun
      refine ⟨hcoherent, fun e' he hfatal => hunmoved ?_⟩
      cases he
      exact hfatal
    · exact ⟨hok a t hrun, nofun⟩

/-- An error of usage leaves a client as it was but for the log. -/
def Refuses (c : Client) (action : Action) : Prop :=
  ∀ e, (c.act action).1.error? = some e → e.isFatal = false →
    Reader.Echoes c.reader (c.act action).2.reader ∧ c.held = (c.act action).2.held

/-- What tells the error of what is read refuses where that is refused. -/
theorem refuses_of_read {α : Type} {x : Read α} {action : Action}
    (hrefused : ∀ e, (x.run.run c.reader).1 = .error e → e.isFatal = false → (x.run.run c.reader).2 = c.reader)
    (hend : (c.act action).2 = { c with reader := (x.run.run c.reader).2 })
    (hsight : ∀ e, (c.act action).1.error? = some e → (x.run.run c.reader).1 = .error e) : c.Refuses action := by
  intro e he hfatal
  rw [hend, hrefused e (hsight e he) hfatal]
  exact ⟨.refl _, rfl⟩

theorem Orderly.call (h : c.Orderly o) (call : Call) :
    (c.act (.operate (.call call))).2.Orderly o ∧ c.Refuses (.operate (.call call)) := by
  obtain ⟨horderly, hrefused⟩ := h.of_settled call.steady_read (Reader.barred_read call) fun hopen =>
    Reader.settled_read hopen h.reader_coherent call
  refine ⟨horderly, refuses_of_read hrefused rfl fun e he => ?_⟩
  have herror : (Report.called call (call.read.run.run c.reader).1).error? = some e := he
  revert herror
  cases (call.read.run.run c.reader).1 with
  | error e => exact fun he => congrArg _ (Option.some.inj he)
  | ok a => nofun

theorem Orderly.take (h : c.Orderly o) (slot : Nat) :
    (c.act (.operate (.take slot))).2.Orderly o ∧ c.Refuses (.operate (.take slot)) := by
  have hsame := (h.same.act (.operate (.take slot))).2
  by_cases hclosed : c.reader.isClosed = true
  · have hact : c.act (.operate (.take slot)) = (.operated ⟨.taken (.error .closed), c.reader.face⟩, c) := by
      rw [Client.act, step, Reader.barred_bookmark c.reader hclosed]
    rw [Refuses, hact]
    exact ⟨h, fun _ _ _ => ⟨.refl _, rfl⟩⟩
  · obtain ⟨d, hstep, -, hheld, hface⟩ := step_take (h.sound (Bool.eq_false_iff.2 hclosed)) slot
    have hact : c.act (.operate (.take slot)) =
        (.operated ⟨.taken (.ok (c.reader.position, c.reader.state)), c.reader.face⟩, d) := by
      rw [Client.act, hstep]
    rw [hact] at hsame
    rw [Refuses, hact]
    refine ⟨⟨hsame, h.reader_coherent.of_face hface, fun {slot' b} howns => ?_⟩, fun e he => ?_⟩
    · obtain ⟨hb, hreader⟩ := howns
      rw [hheld, Function.update_apply] at hb
      split at hb
      · cases hb
        exact h.reader_coherent
      · exact h.held_coherent ⟨hb, hreader⟩
    · cases he

theorem Orderly.returnTo (h : c.Orderly o) (slot : Nat) :
    (c.act (.operate (.returnTo slot))).2.Orderly o ∧ c.Refuses (.operate (.returnTo slot)) := by
  have hsame := (h.same.act (.operate (.returnTo slot))).2
  rcases hheld : c.held slot with _ | b
  · have hact : c.act (.operate (.returnTo slot)) = (.operated ⟨.returned none, c.reader.face⟩, c) := by
      rw [Client.act, step_returnTo_none hheld]
    rw [Refuses, hact]
    exact ⟨h, nofun⟩
  by_cases hclosed : c.reader.isClosed = true
  · have hact : c.act (.operate (.returnTo slot)) =
        (.operated ⟨.returned (some (.error .closed)), c.reader.face⟩, c) := by
      rw [Client.act, step_returnTo_some hheld, Reader.barred_returnTo b c.reader hclosed]
    rw [Refuses, hact]
    exact ⟨h, fun _ _ _ => ⟨.refl _, rfl⟩⟩
  have hsound := h.sound (Bool.eq_false_iff.2 hclosed)
  by_cases hown : b.reader = o.serial
  · obtain ⟨d, hstep, -, hkept, hface⟩ := step_returnTo hsound ⟨hheld, hown⟩
    have hact : c.act (.operate (.returnTo slot)) = (.operated ⟨.returned (some (.ok ())), b.face⟩, d) := by
      rw [Client.act, hstep]
    have hb : b.Coherent := h.held_coherent ⟨hheld, hown⟩
    rw [hact] at hsame
    rw [Refuses, hact]
    refine ⟨⟨hsame, fun hstate => ?_, fun howns => h.held_coherent ⟨hkept ▸ howns.1, howns.2⟩⟩, nofun⟩
    have hframes : d.reader.frames = b.frames := congrArg Reader.Face.frames hface
    rw [hframes]
    exact hb ((congrArg Reader.Face.state hface).symm.trans hstate)
  · have hact : c.act (.operate (.returnTo slot)) =
        (.operated ⟨.returned (some (.error (.staleBookmark b.pin.position .otherReader))),
          (c.reader.refusing b).face⟩, { c with reader := c.reader.refusing b }) := by
      rw [Client.act, step_returnTo_some hheld, Reader.returnTo_run_other hsound.reader_over hown]
    rw [hact] at hsame
    rw [Refuses, hact]
    exact ⟨⟨hsame, h.reader_coherent, h.held_coherent⟩, fun _ _ _ => ⟨rfl, rfl⟩⟩

theorem Orderly.drop (h : c.Orderly o) (slot : Nat) :
    (c.act (.operate (.drop slot))).2.Orderly o ∧ c.Refuses (.operate (.drop slot)) :=
  ⟨⟨(h.same.act (.operate (.drop slot))).2, h.reader_coherent.of_face (drop_face c slot),
    fun howns => h.held_coherent (owns_drop howns).2⟩, nofun⟩

/-- Whatever is done, and whether it fails or not, a client stays in order; an error of usage leaves it as it was. -/
theorem Orderly.act (h : c.Orderly o) (action : Action) : (c.act action).2.Orderly o ∧ c.Refuses action := by
  have hsame := (h.same.act action).2
  cases action with
  | operate operation =>
      cases operation with
      | call call => exact h.call call
      | take slot => exact h.take slot
      | returnTo slot => exact h.returnTo slot
      | drop slot => exact h.drop slot
  | readDocument =>
      obtain ⟨horderly, hrefused⟩ := h.of_settled Reader.local_readDocument.steady Reader.barred_readDocument
        fun hopen => Reader.settled_readDocument hopen h.reader_coherent
      refine ⟨horderly, refuses_of_read hrefused rfl fun e he => ?_⟩
      have herror : (Sight.document (Reader.readDocument.run.run c.reader).1
        (Reader.readDocument.run.run c.reader).2.face).error? = some e := he
      revert herror
      cases (Reader.readDocument.run.run c.reader).1 with
      | error e => exact fun he => congrArg _ (Option.some.inj he)
      | ok d => nofun
  | readValue type =>
      obtain ⟨horderly, hrefused⟩ := h.of_settled (Reader.local_readValue type).steady (Reader.barred_readValue type)
        fun hopen => Reader.settled_readValue hopen h.reader_coherent type
      refine ⟨horderly, refuses_of_read hrefused rfl fun e he => ?_⟩
      have herror : (Sight.value ((Reader.readValue type).run.run c.reader).1
        ((Reader.readValue type).run.run c.reader).2.face).error? = some e := he
      revert herror
      cases ((Reader.readValue type).run.run c.reader).1 with
      | error e => exact fun he => congrArg _ (Option.some.inj he)
      | ok v => nofun
  | close => exact ⟨⟨hsame, nofun, h.held_coherent⟩, nofun⟩
  | release => exact ⟨⟨hsame, nofun, h.held_coherent⟩, nofun⟩

theorem Orderly.perform (h : c.Orderly o) (actions : List Action) : (c.perform actions).2.Orderly o := by
  induction actions generalizing c with
  | nil => exact h
  | cons action later ih => exact ih (h.act action).1

/-- What is read gives the same on two readers that differ in their logs alone. -/
theorem Echoes.of_steady (h : Echoes o c d) {α : Type} {e : WireError} {x : Read α} (hx : x.Steady)
    (hbar : Reader.Barred e x) : Matches Reader.Echoes x x c.reader d.reader := by
  obtain htwin | hshut := h.same
  · obtain ⟨hresult, hdeaf⟩ := hx.matches (Reader.blind_deaf o _) ⟨htwin.left.reader_over, h.readers⟩
    exact ⟨hresult, hdeaf.echoes⟩
  · have hclosed := hshut.readers.isClosed_eq.1
    have hclosed' : d.reader.isClosed = true := by
      rw [h.readers]
      exact hclosed
    rw [Matches, hbar _ hclosed, hbar _ hclosed']
    exact ⟨rfl, h.readers⟩

theorem Echoes.drop (h : Echoes o c d) (slot : Nat) : Reader.Echoes (c.drop slot).reader (d.drop slot).reader := by
  rw [Client.drop, Client.drop, ← h.held_eq]
  split
  · exact h.readers
  · exact h.readers.dropBookmark _

theorem Echoes.eq (h : Echoes o c d) : d = { c with reader := { c.reader with log := d.reader.log } } := by
  obtain ⟨reader, held⟩ := d
  obtain ⟨-, hreaders, rfl⟩ := h
  exact congrArg (Client.mk · _) hreaders

theorem Echoes.take (h : Echoes o c d) (slot : Nat) :
    (c.step (.take slot)).1 = (d.step (.take slot)).1 ∧
      Reader.Echoes (c.step (.take slot)).2.reader (d.step (.take slot)).2.reader ∧
      (c.step (.take slot)).2.held = (d.step (.take slot)).2.held := by
  obtain htwin | hshut := h.same
  · have hsound : d.Sound o := h.eq ▸ htwin.left.of_over (htwin.left.reader_over.recorded _)
    have hmarked : Echoes o { c with reader := c.reader.marked } { d with reader := d.reader.marked } := by
      refine ⟨.inl ⟨htwin.left.mark, htwin.left.mark, htwin.readers.marked, rfl⟩, ?_, h.held_eq⟩
      rw [h.eq]
      rfl
    have hmark : c.reader.mark = d.reader.mark := by
      rw [h.eq]
      rfl
    rw [step_take_eq htwin.left, step_take_eq hsound, h.readers.face_eq, took, took, hmark, h.held_eq]
    have hposition : c.reader.position = d.reader.position := congrArg Reader.Face.position h.readers.face_eq
    have hstate : c.reader.state = d.reader.state := congrArg Reader.Face.state h.readers.face_eq
    rw [hposition, hstate]
    refine ⟨rfl, ?_, rfl⟩
    have hdropped := hmarked.drop slot
    rwa [h.held_eq] at hdropped
  · have hclosed := hshut.readers.isClosed_eq.1
    have hclosed' : d.reader.isClosed = true := by
      rw [h.readers]
      exact hclosed
    rw [step, step, Reader.barred_bookmark _ hclosed, Reader.barred_bookmark _ hclosed']
    exact ⟨congrArg (Answer.mk _) h.readers.face_eq, h.readers, h.held_eq⟩

theorem Echoes.step (h : Echoes o c d) (operation : Operation) :
    (c.step operation).1 = (d.step operation).1 ∧
      Reader.Echoes (c.step operation).2.reader (d.step operation).2.reader ∧
      (c.step operation).2.held = (d.step operation).2.held := by
  cases operation with
  | call call =>
      obtain ⟨hresult, hreaders⟩ := h.of_steady call.steady_read (Reader.barred_read call)
      rw [step_call, step_call, hresult, hreaders.face_eq]
      exact ⟨rfl, hreaders, h.held_eq⟩
  | take slot => exact h.take slot
  | returnTo slot =>
      rcases hc : c.held slot with _ | b
      · have hd : d.held slot = none := h.held_eq ▸ hc
        rw [step_returnTo_none hc, step_returnTo_none hd, h.readers.face_eq]
        exact ⟨rfl, h.readers, h.held_eq⟩
      · have hd : d.held slot = some b := h.held_eq ▸ hc
        obtain ⟨hresult, hreaders⟩ := h.readers.returnTo b
        rw [step_returnTo_some hc, step_returnTo_some hd, hresult, hreaders.face_eq]
        exact ⟨rfl, hreaders, h.held_eq⟩
  | drop slot =>
      rw [Client.step, Client.step, (h.drop slot).face_eq]
      refine ⟨rfl, h.drop slot, ?_⟩
      rw [drop_held, drop_held, h.held_eq]

/-- An action tells the same of two clients that differ in the logs alone. -/
theorem Echoes.act (h : Echoes o c d) (action : Action) :
    (c.act action).1 = (d.act action).1 ∧ Echoes o (c.act action).2 (d.act action).2 := by
  have hsame := (h.same.act action).2
  cases action with
  | operate operation =>
      obtain ⟨hanswer, hreaders, hheld⟩ := h.step operation
      exact ⟨congrArg Sight.operated hanswer, hsame, hreaders, hheld⟩
  | readDocument =>
      obtain ⟨hresult, hreaders⟩ := h.of_steady Reader.local_readDocument.steady Reader.barred_readDocument
      exact ⟨congrArg₂ Sight.document hresult hreaders.face_eq, hsame, hreaders, h.held_eq⟩
  | readValue type =>
      obtain ⟨hresult, hreaders⟩ := h.of_steady (Reader.local_readValue type).steady (Reader.barred_readValue type)
      exact ⟨congrArg₂ Sight.value hresult hreaders.face_eq, hsame, hreaders, h.held_eq⟩
  | close =>
      have hreaders : Reader.Echoes c.reader.close d.reader.close := by
        rw [h.readers]
        rfl
      exact ⟨congrArg Sight.closed hreaders.face_eq, hsame, hreaders, h.held_eq⟩
  | release =>
      have hreaders : Reader.Echoes c.reader.release.2 d.reader.release.2 := by
        rw [h.readers]
        rfl
      have hsource : c.reader.release.1 = d.reader.release.1 := by
        rw [h.readers]
        rfl
      exact ⟨congrArg₂ Sight.released (congrArg Option.isSome hsource) hreaders.face_eq, hsame, hreaders, h.held_eq⟩

theorem Echoes.perform (h : Echoes o c d) (actions : List Action) : (c.perform actions).1 = (d.perform actions).1 := by
  induction actions generalizing c d with
  | nil => rfl
  | cons action later ih =>
      obtain ⟨hsight, hlater⟩ := h.act action
      rw [Client.perform, Client.perform]
      exact congrArg₂ List.cons hsight (ih hlater)

/-- An error of usage leaves a reader where it was, whatever has been done with it before: nothing but its log has
changed, the bookmarks are the same, and whatever is done later tells what it would have told without the call. -/
theorem unchanged_of_usageError (source : Source) (limits : Limits) (serial : Nat) {foreign : Nat → Option Bookmark}
    (hforeign : ∀ slot b, foreign slot = some b → b.reader ≠ serial) (before : List Action) (action : Action)
    {c d : Client} {sight : Sight} {e : WireError} (hc : c = ((ofSource source limits serial foreign).perform before).2)
    (hact : c.act action = (sight, d)) (he : sight.error? = some e) (hfatal : e.isFatal = false) :
    d.reader = { c.reader with log := d.reader.log } ∧ d.held = c.held ∧
      ∀ later, (d.perform later).1 = (c.perform later).1 := by
  have horderly : c.Orderly ⟨source.feed, serial, limits⟩ :=
    hc ▸ (orderly_ofSource source limits serial hforeign).perform before
  have hrefused := (horderly.act action).2 e
  rw [hact] at hrefused
  obtain ⟨hreaders, hheld⟩ := hrefused he hfatal
  have hechoes : Echoes ⟨source.feed, serial, limits⟩ c d := ⟨horderly.same, hreaders, hheld⟩
  exact ⟨hreaders, hheld.symm, fun later => (hechoes.perform later).symm⟩

/-- The name of an element is not the expected one, and then its value is asked for as a string. -/
theorem unchanged_of_usageError_afterMismatch :
    ∃ source before c sight d e,
      source = Source.ofBytes [12, 0, 0, 0, 16, 97, 0, 1, 0, 0, 0, 0] 3 none true ∧
      before = [.operate (.take 0), .operate (.call .startDocument), .operate (.call .readType),
        .operate (.call (.expectName "b"))] ∧
      c = ((ofSource source {} 0 fun _ => none).perform before).2 ∧ c.act (.readValue .string) = (sight, d) ∧
      sight.error? = some e ∧ e.isFatal = false ∧
      d.reader = { c.reader with log := d.reader.log } ∧ d.held = c.held ∧
      ∀ later, (d.perform later).1 = (c.perform later).1 := by
  have hforeign : ∀ slot b, (fun _ => none : Nat → Option Bookmark) slot = some b → b.reader ≠ 0 := nofun
  obtain ⟨c, hc⟩ : ∃ c, c = ((ofSource (.ofBytes [12, 0, 0, 0, 16, 97, 0, 1, 0, 0, 0, 0] 3 none true) {} 0
      fun _ => none).perform [.operate (.take 0), .operate (.call .startDocument), .operate (.call .readType),
        .operate (.call (.expectName "b"))]).2 := ⟨_, rfl⟩
  have hrefused : (c.act (.readValue .string)).1.error?.map WireError.isFatal = some false := by
    rw [hc]
    decide +kernel
  obtain ⟨e, he, hfatal⟩ := Option.map_eq_some_iff.1 hrefused
  rcases hact : c.act (.readValue .string) with ⟨sight, d⟩
  rw [hact] at he
  exact ⟨_, _, c, sight, d, e, rfl, rfl, hc, hact, he, hfatal,
    unchanged_of_usageError _ {} 0 hforeign _ _ hc hact he hfatal⟩

end Client

end Aggregation.Wire
