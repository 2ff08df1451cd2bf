import Aggregation.Proofs.Wire.Clients
import Aggregation.Proofs.Wire.Spending
import Aggregation.Wire.Decoding
import Mathlib.Logic.Function.Iterate

/-! Whole values. The loops that read them call each other, and every way round takes bytes. Unrolled more often than
there are bytes left, they never come to what stands at the bottom, whatever that is; so they end by themselves, and any
bound on the number of steps that is not too small is as good as none. On two readers in a lasting bond the loops do
what every single step does. -/

namespace Aggregation.Wire

open Stepping

namespace Read

open Reader

variable {α β : Type} {x y : Read α} {f g : α → Read β} {free : Prop} {count most most' : Nat} {r q : Reader}

/-- A bond of which the second reader is over a feed, at a position or after it. -/
def Bond.within (B : Bond) (feed : Feed) (p : Nat) : Bond :=
  { B with rel := fun r q => B.rel r q ∧ q.input.Window feed ∧ p ≤ q.position }

theorem Follows.forget {B : Bond} {feed : Feed} {p : Nat} (h : Follows (B.within feed p) x y r q) :
    Follows B x y r q := by
  cases h with
  | same h => exact .same ⟨h.1, h.2.1⟩
  | fails hlenient h => exact .fails hlenient h
  | lacks h hlacks => exact .lacks h hlacks

/-- Reading goes on over the same feed, and does not go back. -/
theorem Follows.within {B : Bond} {feed : Feed} {p : Nat} {step : Replay α}
    (h : Follows B (onInput step) (onInput step) r q) (hstep : step.Steady) (hwindow : q.input.Window feed)
    (hle : p ≤ q.position) : Follows (B.within feed p) (onInput step) (onInput step) r q := by
  obtain ⟨result, next, hnext, hsettles⟩ := hstep.settles feed q.position
  obtain ⟨b, hrun, hreaches⟩ := hsettles q.input hwindow rfl
  cases h with
  | fails hlenient h => exact .fails hlenient h
  | lacks h hlacks => exact .lacks h hlacks
  | same h =>
      refine .same ⟨h.1, h.2, ?_, ?_⟩
      · rw [onInput_run, hrun]
        exact hreaches.window
      · rw [onInput_run, hrun, position, hreaches.position_eq]
        exact Nat.le_trans hle hnext

theorem Bond.Lasting.within {B : Bond} (hB : B.Lasting) (feed : Feed) (p : Nat) : (B.within feed p).Lasting where
  beside h := hB.beside h.1
  left h := hB.left h.1
  right h := hB.right h.1
  alike hexact _ _ h := hB.alike hexact h.1
  lenient_of_lacks := hB.lenient_of_lacks
  onInput hstep _ _ h := (hB.onInput hstep h.1).within hstep.steady h.2.1 h.2.2
  foresees hlacks _ _ hstep _ _ h := (hB.foresees hlacks hstep h.1).within hstep h.2.1 h.2.2
  wear h _ _ hlook heq := ⟨hB.wear h.1 hlook heq, h.2⟩
  record hexact _ _ h entry := ⟨hB.record hexact h.1 entry, h.2⟩
  compact := by
    intro r q h
    have hreaches := h.2.1.reaches_compact
    refine ⟨hB.compact h.1, hreaches.window, ?_⟩
    rw [position, hreaches.position_eq]
    exact h.2.2

/-- Steps of which the second does what the first does on readers in a lasting bond, as long as the second reader has
fewer than a number of bytes left. Some are bound by no number where what the second does after a failure is left
open. -/
def Below (free : Prop) (most : Nat) (x y : Read α) : Prop :=
  ∀ ⦃B : Bond⦄, B.Lasting → ∀ ⦃r q⦄, B.rel r q → free ∧ B.lenient ∨ q.supply < most → Follows B x y r q

theorem Local.below (hx : Local x) (free : Prop) (most : Nat) : Below free most x x := fun _ hB _ _ h _ => hx hB h

theorem Below.mono (h : Below free most' x y) (hle : most ≤ most') : Below free most x y :=
  fun _ hB _ _ hrel hbound => h hB hrel (hbound.imp_right fun hlt => Nat.lt_of_lt_of_le hlt hle)

theorem below_zero (hfails : free → ∀ r, Fails x r) : Below free 0 x y := by
  rintro B - r q - (⟨hfree, hlenient⟩ | hlt)
  · exact .fails hlenient (hfails hfree r)
  · exact absurd hlt (Nat.not_lt_zero _)

/-- What the first step has taken is not left to the next one. -/
theorem Local.bind_below (hx : Local x) (hspends : Spends count x) (hf : ∀ a, Below free most (f a) (g a)) :
    Below free (most + count) (x >>= f) (x >>= g) := by
  intro B hB r q h hbound
  obtain ⟨feed, hwindow⟩ := hB.right h
  have hbeside := hB.beside h
  refine (hx hB h).bind fun a s t hrun hst => hf a hB hst (hbound.imp_right fun hlt => ?_)
  have hpast := hspends feed q a t hwindow (hbeside.state_eq ▸ hbeside.state_ne) hrun
  have hle := hpast.supply_add_le hwindow
  omega

/-- The first step does not go back, so that what follows it finds no more bytes than it did. -/
theorem Below.bind (hx : Below free most x y) (hf : ∀ a, Below free most (f a) (g a)) :
    Below free most (x >>= f) (y >>= g) := by
  intro B hB r q h hbound
  obtain ⟨feed, hwindow⟩ := hB.right h
  have hwithin := hB.within feed q.position
  refine ((hx hwithin ⟨h, hwindow, Nat.le_refl _⟩ hbound).bind fun a s t _ hst => ?_).forget
  refine hf a hwithin hst (hbound.imp_right fun hlt => ?_)
  have hle : t.supply + 0 ≤ q.supply := supply_add_le hwindow hst.2.1 hst.2.2
  omega

theorem Below.bind_pure (hx : Below free most x y) (k : α → β) :
    Below free most (do return k (← x)) (do return k (← y)) :=
  hx.bind fun a => (local_pure (k a)).below free most

/-- On one reader the steps are one and the same. -/
theorem Below.run_eq (h : Below free most x y) {feed : Feed} (hwindow : r.input.Window feed)
    (hstate : r.state ≠ .closed) (hlt : r.supply < most) : x.run.run r = y.run.run r := by
  have hsame := h (blind_past feed r.position).lasting (past_self hwindow hstate) (.inr hlt)
  obtain ⟨hresult, hpast⟩ := hsame.matches id fun _ => id
  exact Prod.ext hresult hpast.eq

end Read

namespace Reader

open Read

/-- What the loops that read whole values call in turn. -/
structure Loops where
  value : ElementType → Read Value
  document : Read Document
  fields : Document → Read Document
  array : Read (List Value)
  items : Read (List Value)

namespace Loops

/-- The loops, unrolled once. -/
def unrolled (rest : Loops) : Loops where
  value
    | .document => return .document (← rest.document)
    | .array => return .array (← rest.array)
    | .scopedCode => do
      let code ← readScopedCode
      return .scopedCode code (← rest.document)
    | type => readValueWithin 1 type
  document := do
    startDocument
    let d ← rest.fields .empty
    endDocument
    return d
  fields d := do
    let start ← offset
    let type ← readType
    if type = .endOfDocument then return d
    let name ← readName
    if d.contains name then throw (.malformedValue start (.duplicateField name))
    let value ← rest.value type
    rest.fields (d.insert name value)
  array := do
    startArray
    let items ← rest.items
    endArray
    return items
  items := do
    let type ← readType
    if type = .endOfDocument then return []
    skipName
    let item ← rest.value type
    return item :: (← rest.items)

/-- The loops with a bound on the number of steps. -/
def within (fuel : Nat) : Loops :=
  ⟨readValueWithin fuel, readDocumentWithin fuel, readFieldsWithin fuel, readArrayWithin fuel, readItemsWithin fuel⟩

theorem within_succ (fuel : Nat) : within (fuel + 1) = (within fuel).unrolled := by
  have hvalue (type : ElementType) : readValueWithin (fuel + 1) type = (within fuel).unrolled.value type := by
    cases type <;> rfl
  rw [within, funext hvalue]
  rfl

/-- A bound is a number of times that the loops are unrolled. -/
theorem within_add (count fuel : Nat) : within (fuel + count) = unrolled^[count] (within fuel) := by
  induction count with
  | zero => rfl
  | succ count ih => rw [← Nat.add_assoc, within_succ, ih, Function.iterate_succ_apply']

end Loops

/-- Values of a type are read by one call, and made of what it gives. -/
structure ReadsBy (type : ElementType) (call : Call) (k : call.Result → Value) : Prop where
  expects_eq : call.expects = some type
  type_ne : type ≠ .endOfDocument
  elementType_eq : ∀ a, (k a).elementType = type
  unrolled_eq : ∀ rest : Loops, rest.unrolled.value type = do return k (← call.read)

theorem ReadsBy.call_ne {type : ElementType} {call : Call} {k : call.Result → Value} (h : ReadsBy type call k) :
    call ≠ .isAtEnd := by
  rintro rfl
  cases h.expects_eq

theorem ReadsBy.read_eq {type : ElementType} {call : Call} {k : call.Result → Value} (h : ReadsBy type call k)
    (fuel : Nat) : readValueWithin (fuel + 1) type = do return k (← call.read) :=
  (congrArg (Loops.value · type) (Loops.within_succ fuel)).trans (h.unrolled_eq (.within fuel))

/-- Values are read by one call, but for those that hold others. -/
theorem exists_readsBy_or (type : ElementType) :
    (∃ call k, ReadsBy type call k) ∨
      type = .document ∨ type = .array ∨ type = .scopedCode ∨ type = .endOfDocument := by
  cases type with
  | document => exact .inr (.inl rfl)
  | array => exact .inr (.inr (.inl rfl))
  | scopedCode => exact .inr (.inr (.inr (.inl rfl)))
  | endOfDocument => exact .inr (.inr (.inr (.inr rfl)))
  | double => exact .inl ⟨.readDouble, .double, rfl, by decide, fun _ => rfl, fun _ => rfl⟩
  | string => exact .inl ⟨.readString, .string, rfl, by decide, fun _ => rfl, fun _ => rfl⟩
  | binary =>
      exact .inl ⟨.readBinary, fun a => .binary a.1 a.2, rfl, by decide, fun _ => rfl, fun _ => rfl⟩
  | undefined =>
      exact .inl ⟨.readUndefined, fun _ => .undefined, rfl, by decide, fun _ => rfl, fun _ => rfl⟩
  | objectId => exact .inl ⟨.readObjectId, .objectId, rfl, by decide, fun _ => rfl, fun _ => rfl⟩
  | boolean => exact .inl ⟨.readBoolean, .boolean, rfl, by decide, fun _ => rfl, fun _ => rfl⟩
  | dateTime => exact .inl ⟨.readDateTime, .dateTime, rfl, by decide, fun _ => rfl, fun _ => rfl⟩
  | null => exact .inl ⟨.readNull, fun _ => .null, rfl, by decide, fun _ => rfl, fun _ => rfl⟩
  | regularExpression =>
      exact .inl ⟨.readRegularExpression, fun a => .regularExpression a.1 a.2, rfl, by decide,
        fun _ => rfl, fun _ => rfl⟩
  | dbPointer =>
      exact .inl ⟨.readDbPointer, fun a => .dbPointer a.1 a.2, rfl, by decide, fun _ => rfl, fun _ => rfl⟩
  | javaScript => exact .inl ⟨.readJavaScript, .javaScript, rfl, by decide, fun _ => rfl, fun _ => rfl⟩
  | symbol => exact .inl ⟨.readSymbol, .symbol, rfl, by decide, fun _ => rfl, fun _ => rfl⟩
  | int32 => exact .inl ⟨.readInt32, .int32, rfl, by decide, fun _ => rfl, fun _ => rfl⟩
  | timestamp =>
      exact .inl ⟨.readTimestamp, fun a => .timestamp a.1 a.2, rfl, by decide, fun _ => rfl, fun _ => rfl⟩
  | int64 => exact .inl ⟨.readInt64, .int64, rfl, by decide, fun _ => rfl, fun _ => rfl⟩
  | decimal128 => exact .inl ⟨.readDecimal128, .decimal128, rfl, by decide, fun _ => rfl, fun _ => rfl⟩
  | minKey => exact .inl ⟨.readMinKey, fun _ => .minKey, rfl, by decide, fun _ => rfl, fun _ => rfl⟩
  | maxKey => exact .inl ⟨.readMaxKey, fun _ => .maxKey, rfl, by decide, fun _ => rfl, fun _ => rfl⟩

namespace Loops

/-- Loops of which the second do what the first do, as long as there are not too many bytes left. -/
structure Related (free : Prop) (count : Nat) (loops loops' : Loops) : Prop where
  value : ∀ type, Below free (count - 1) (loops.value type) (loops'.value type)
  document : Below free count loops.document loops'.document
  fields : ∀ d, Below free (count - 2) (loops.fields d) (loops'.fields d)
  array : Below free count loops.array loops'.array
  items : Below free (count - 2) loops.items loops'.items

variable {free : Prop} {count : Nat} {loops loops' : Loops}

theorem Related.unrolled_value (h : Related free count loops loops') (type : ElementType) :
    Below free count (loops.unrolled.value type) (loops'.unrolled.value type) := by
  rcases exists_readsBy_or type with ⟨call, k, hreads⟩ | rfl | rfl | rfl | rfl
  · rw [hreads.unrolled_eq, hreads.unrolled_eq]
    exact ((call.local_read hreads.call_ne).bind_pure k).below free count
  · exact h.document.bind_pure Value.document
  · exact h.array.bind_pure Value.array
  · exact (local_readScopedCode.below free count).bind fun code => h.document.bind_pure (Value.scopedCode code)
  · exact (local_throw _).below free count

theorem Related.unrolled_document (h : Related free count loops loops') :
    Below free (count + 1) loops.unrolled.document loops'.unrolled.document := by
  refine (local_startDocument.bind_below spends_startDocument fun _ => ?_).mono (by omega : count + 1 ≤ count - 2 + 4)
  exact (h.fields .empty).bind fun d => (local_endDocument.below free _).bind_pure fun _ => d

theorem Related.unrolled_array (h : Related free count loops loops') :
    Below free (count + 1) loops.unrolled.array loops'.unrolled.array := by
  refine (local_startArray.bind_below spends_startArray fun _ => ?_).mono (by omega : count + 1 ≤ count - 2 + 4)
  exact h.items.bind fun items => (local_endArray.below free _).bind_pure fun _ => items

theorem Related.unrolled_fields (h : Related free count loops loops') (d : Document) :
    Below free (count - 1) (loops.unrolled.fields d) (loops'.unrolled.fields d) := by
  -- the name takes a byte at least, so that what is left needs fewer rounds
  have hvalue (name : String) (type : ElementType) : Below free (count - 2) (do
      let value ← loops.value type
      loops.fields (d.insert name value)) (do
      let value ← loops'.value type
      loops'.fields (d.insert name value)) :=
    ((h.value type).mono (by omega)).bind fun value => h.fields _
  refine (local_offset.below free _).bind fun start => (local_readType.below free _).bind fun type => ?_
  split
  · exact (local_pure d).below free _
  · refine (local_readName.bind_below spends_readName fun name => ?_).mono (by omega : count - 1 ≤ count - 2 + 1)
    split
    · exact ((local_throw _).below free _).bind fun _ => hvalue name type
    · exact hvalue name type

theorem Related.unrolled_items (h : Related free count loops loops') :
    Below free (count - 1) loops.unrolled.items loops'.unrolled.items := by
  refine (local_readType.below free _).bind fun type => ?_
  split
  · exact (local_pure _).below free _
  · refine (local_skipName.bind_below spends_skipName fun _ => ?_).mono (by omega : count - 1 ≤ count - 2 + 1)
    exact ((h.value type).mono (by omega)).bind fun item => h.items.bind_pure _

theorem Related.unrolled (h : Related free count loops loops') :
    Related free (count + 1) loops.unrolled loops'.unrolled :=
  ⟨h.unrolled_value, h.unrolled_document, h.unrolled_fields, h.unrolled_array, h.unrolled_items⟩

/-- Unrolled a number of times, the loops are related whatever stands at the bottom; and if nothing stands there, they
are related however many bytes are left. -/
theorem related_unrolled (loops' : Loops) (hbottom : free → loops = within 0) (count : Nat) :
    Related free count (unrolled^[count] loops) (unrolled^[count] loops') := by
  induction count with
  | zero =>
      refine ⟨fun _ => below_zero fun h => ?_, below_zero fun h => ?_, fun _ => below_zero fun h => ?_,
        below_zero fun h => ?_, below_zero fun h => ?_⟩
      all_goals
        rw [Function.iterate_zero_apply, hbottom h]
        exact fails_outOfBytes
  | succ count ih =>
      rw [Function.iterate_succ_apply', Function.iterate_succ_apply']
      exact ih.unrolled

/-- Two bounds on the number of steps. -/
theorem related_within (fuel fuel' : Nat) :
    Related (fuel ≤ fuel') (min fuel fuel') (within fuel) (within fuel') := by
  have hbottom (hle : fuel ≤ fuel') : within (fuel - min fuel fuel') = within 0 := by
    rw [Nat.min_eq_left hle, Nat.sub_self]
  have h := related_unrolled (within (fuel' - min fuel fuel')) hbottom (min fuel fuel')
  rwa [← within_add, ← within_add, Nat.sub_add_cancel (Nat.min_le_left ..), Nat.sub_add_cancel (Nat.min_le_right ..)]
    at h

end Loops

section

variable {B : Bond} {r q : Reader}

/-- There are more steps than bytes. -/
theorem supply_lt_of_le {fuel : Nat} (hle : q.steps ≤ fuel) : q.supply < min fuel q.steps - 1 := by
  rw [Nat.min_eq_right hle, steps]
  omega

/-- What is bounded by the number of bytes that are left is not bounded at all. -/
theorem bounded_or_of_rel (hB : B.Lasting) (h : B.rel r q) :
    r.steps ≤ q.steps ∧ B.lenient ∨ q.supply < min r.steps q.steps - 1 := by
  by_cases hlenient : B.lenient
  · exact (Nat.le_total r.steps q.steps).imp (⟨·, hlenient⟩) supply_lt_of_le
  · have hsteps : r.steps = q.steps := by rw [steps, steps, (hB.alike hlenient h).supply_eq]
    exact .inr (supply_lt_of_le (Nat.le_of_eq hsteps.symm))

theorem local_readValue (type : ElementType) : Local (readValue type) := fun _ hB r q h =>
  follows_get_bind ((Loops.related_within r.steps q.steps).value type hB h (bounded_or_of_rel hB h))

theorem local_readDocument : Local readDocument := by
  intro B hB r q h
  have hdocument := (Loops.related_within r.steps q.steps).document.mono (Nat.sub_le _ 1)
  exact follows_get_bind (hdocument hB h (bounded_or_of_rel hB h))

/-- Where what the second reader does after a failure is left open, the first one may be bounded in any way. -/
theorem follows_readValueWithin (hB : B.Lasting) (hlenient : B.lenient) (h : B.rel r q) (fuel : Nat)
    (type : ElementType) : Follows B (readValueWithin fuel type) (readValue type) r q := by
  have hbound : fuel ≤ q.steps ∧ B.lenient ∨ q.supply < min fuel q.steps - 1 :=
    (Nat.le_total fuel q.steps).imp (⟨·, hlenient⟩) supply_lt_of_le
  exact ((Loops.related_within fuel q.steps).value type hB h hbound).congr rfl (run_bind_ok (run_get q))

end

/-- A greater bound than the number of bytes that are left changes nothing. -/
theorem readDocumentWithin_run_eq {feed : Feed} {r : Reader} {fuel fuel' : Nat} (hwindow : r.input.Window feed)
    (hstate : r.state ≠ .closed) (hfuel : r.supply < fuel) (hle : fuel ≤ fuel') :
    (readDocumentWithin fuel').run.run r = (readDocumentWithin fuel).run.run r := by
  refine ((Loops.related_within fuel' fuel).document).run_eq hwindow hstate ?_
  rwa [Nat.min_eq_right hle]

theorem readDocument_run (r : Reader) : readDocument.run.run r = (readDocumentWithin r.steps).run.run r :=
  run_bind_ok (run_get r)

/-- Reading a document ends by itself: it goes round the loops no more often than there are bytes, whatever is to be
done after that. -/
theorem readDocument_run_eq {feed : Feed} {r : Reader} {count : Nat} (hwindow : r.input.Window feed)
    (hstate : r.state ≠ .closed) (hcount : r.supply < count) (rest : Loops) :
    (Loops.unrolled^[count] rest).document.run.run r = readDocument.run.run r := by
  have hsteps : r.supply < r.steps := by
    rw [steps]
    omega
  have hwithin : Loops.Related False count (Loops.unrolled^[count] rest) (Loops.unrolled^[count] (.within 0)) :=
    Loops.related_unrolled (.within 0) False.elim count
  rw [← Loops.within_add, Nat.zero_add] at hwithin
  rw [readDocument_run, hwithin.document.run_eq hwindow hstate hcount]
  rcases Nat.le_total count r.steps with hle | hle
  · exact (readDocumentWithin_run_eq hwindow hstate hcount hle).symm
  · exact readDocumentWithin_run_eq hwindow hstate hsteps hle

end Reader

end Aggregation.Wire
