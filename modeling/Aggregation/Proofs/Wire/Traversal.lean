import Aggregation.Proofs.Wire.ReadingWalks
import Aggregation.Proofs.Wire.Passing
import Aggregation.Proofs.Wire.SamePlace

/-! Going through documents in any way. Of each element the name is read or passed over, and the value is passed over,
read as a whole or gone into; whatever the mix is, what is read is what reading the whole document gives. -/

namespace Aggregation.Wire

open Stepping

/-- What is done on the way, and what it gives. -/
inductive Told where
  | called (heard : Heard)
  /-- A value is read as a whole. -/
  | read (v : Value)
  /-- The name of an item is passed over, or read if that is possible: it need not be text. -/
  | item

/-- What is done succeeds and gives what is told, and the reader it leads to has a property. -/
def Told.Leads (told : Told) (P : Reader → Prop) (r : Reader) : Prop :=
  match told with
  | called heard => ∃ s, heard.call.read.run.run r = (.ok heard.result, s) ∧ P s
  | read v => ∃ s, (Reader.readValue v.elementType).run.run r = (.ok v, s) ∧ P s
  | item =>
    (∃ s, Reader.skipName.run.run r = (.ok (), s) ∧ P s) ∧
      ∀ name s, Reader.readName.run.run r = (.ok name, s) → P s

/-- One thing after the other is done as told, and the reader it leads to has a property. -/
def Tells (P : Reader → Prop) : List Told → Reader → Prop
  | [], r => P r
  | told :: later, r => told.Leads (Tells P later) r

/-- The name of an element is read or passed over. -/
inductive ToursName (name : String) : Told → Prop
  | read : ToursName name (.called ⟨.readName, name⟩)
  | skip : ToursName name (.called ⟨.skipName, ()⟩)

mutual

/-- The ways to go through a value, with what is told on each. -/
inductive ToursValue : Value → List Told → Prop
  | skip (v : Value) : ToursValue v [.called ⟨.skipValue, ()⟩]
  | read (v : Value) : ToursValue v [.read v]
  /-- A value that is no container has a call of its own. -/
  | call {v : Value} {heard : Heard} (h : heardValue v = [heard]) : ToursValue v [.called heard]
  | document {d : Document} {told : List Told} (h : ToursFields d.entries told) :
      ToursValue (.document d) (.called ⟨.startDocument, ()⟩ :: told ++ [.called ⟨.endDocument, ()⟩])
  | array {xs : List Value} {told : List Told} (h : ToursItems xs told) :
      ToursValue (.array xs) (.called ⟨.startArray, ()⟩ :: told ++ [.called ⟨.endArray, ()⟩])
  | scopedCode {code : String} {d : Document} {told : List Told} (h : ToursFields d.entries told) :
      ToursValue (.scopedCode code d)
        (.called ⟨.readScopedCode, code⟩ :: .called ⟨.startDocument, ()⟩ :: told ++ [.called ⟨.endDocument, ()⟩])

/-- The ways to go through the fields of a document, its terminator included. -/
inductive ToursFields : List (String × Value) → List Told → Prop
  | nil : ToursFields [] [.called ⟨.readType, .endOfDocument⟩]
  | cons {name : String} {v : Value} {rest : List (String × Value)} {named : Told} {told later : List Told}
      (hname : ToursName name named) (hvalue : ToursValue v told) (hrest : ToursFields rest later) :
      ToursFields ((name, v) :: rest) (.called ⟨.readType, v.elementType⟩ :: named :: told ++ later)

/-- The ways to go through the items of an array, its terminator included. -/
inductive ToursItems : List Value → List Told → Prop
  | nil : ToursItems [] [.called ⟨.readType, .endOfDocument⟩]
  | cons {v : Value} {rest : List Value} {told later : List Told} (hvalue : ToursValue v told)
      (hrest : ToursItems rest later) :
      ToursItems (v :: rest) (.called ⟨.readType, v.elementType⟩ :: .item :: told ++ later)

end

theorem Told.Leads.imp {told : Told} {P Q : Reader → Prop} {r : Reader} (h : told.Leads P r) (hPQ : ∀ s, P s → Q s) :
    told.Leads Q r := by
  cases told with
  | called heard => exact Exists.imp (fun s => And.imp_right (hPQ s)) h
  | read v => exact Exists.imp (fun s => And.imp_right (hPQ s)) h
  | item =>
      obtain ⟨hskip, hread⟩ := h
      exact ⟨Exists.imp (fun s => And.imp_right (hPQ s)) hskip, fun name s hrun => hPQ s (hread name s hrun)⟩

theorem Tells.imp {P Q : Reader → Prop} {told : List Told} {r : Reader} (h : Tells P told r) (hPQ : ∀ s, P s → Q s) :
    Tells Q told r := by
  induction told generalizing r with
  | nil => exact hPQ r h
  | cons first later ih => exact Told.Leads.imp h fun s hs => ih hs

theorem tells_append {P : Reader → Prop} {told later : List Told} {r : Reader} (h : Tells (Tells P later) told r) :
    Tells P (told ++ later) r := by
  induction told generalizing r with
  | nil => exact h
  | cons first rest ih => exact Told.Leads.imp h fun s hs => ih hs

/-- A value that is no container is passed over, read as a whole, or read by its call. -/
theorem ToursValue.of_heard {v : Value} {heard : Heard} {told : List Told} (h : ToursValue v told)
    (hheard : heardValue v = [heard]) :
    told = [.called ⟨.skipValue, ()⟩] ∨ told = [.read v] ∨ told = [.called heard] := by
  cases h with
  | skip => exact .inl rfl
  | read => exact .inr (.inl rfl)
  | call h =>
      rw [hheard] at h
      exact .inr (.inr (congrArg (fun heard => [Told.called heard]) (List.singleton_inj.1 h.symm)))
  | document => simp [heardValue, documentEnd] at hheard
  | array => simp [heardValue, arrayEnd] at hheard
  | scopedCode => simp [heardValue] at hheard

namespace Reader

open Read

variable {feed : Feed} {r q s t : Reader}

/-- Whatever the second reader does as told, it comes to the place of the first one. -/
def Arrives (feed : Feed) (s : Reader) (told : List Told) (q : Reader) : Prop :=
  Tells (Abreast feed s) told q

theorem Arrives.trans {told later : List Told} (h : Arrives feed s told q)
    (hlater : ∀ q', Abreast feed s q' → Arrives feed t later q') :
    Arrives feed t (told ++ later) q :=
  tells_append (Tells.imp h hlater)

theorem Abreast.arrives_call (h : Abreast feed r q) (call : Call) {a : call.Result}
    (hrun : call.read.run.run r = (.ok a, s)) : Arrives feed s [.called ⟨call, a⟩] q := by
  obtain ⟨t, hread, hst⟩ := h.of_steady call.steady_read hrun
  exact ⟨t, hread, hst⟩

/-- The name of an item that is passed over. -/
theorem Abreast.arrives_item (h : Abreast feed r q) (hrun : skipName.run.run r = (.ok (), s)) :
    Arrives feed s [.item] q := by
  obtain ⟨t, hskip, hst⟩ := h.of_steady local_skipName.steady hrun
  -- if the name can be read, that leads to the same reader but for the name
  refine ⟨⟨t, hskip, hst⟩, fun name t' hread => ?_⟩
  obtain ⟨-, rfl⟩ := Prod.mk.inj ((skipName_run_of_readName hread).symm.trans hskip)
  exact hst.rename s.currentName t'.currentName

/-- The name of an element that is read. -/
theorem Abreast.arrives_name (h : Abreast feed r q) {name : String} {named : Told}
    (hrun : readName.run.run r = (.ok name, s)) (hname : ToursName name named) : Arrives feed s [named] q := by
  cases hname with
  | read => exact h.arrives_call .readName hrun
  | skip =>
      obtain ⟨t, hskip, hst⟩ := h.skipName_of_readName hrun
      exact ⟨t, hskip, hst⟩

/-! ## Values -/

theorem elementType_of_run {fuel : Nat} {type : ElementType} {v : Value}
    (hrun : (readValueWithin fuel type).run.run r = (.ok v, s)) : v.elementType = type := by
  cases fuel with
  | zero => exact absurd hrun (fails_outOfBytes _).ne_ok
  | succ fuel =>
      rcases exists_readsBy_or type with ⟨call, k, hreads⟩ | rfl | rfl | rfl | rfl
      · rw [hreads.read_eq] at hrun
        obtain ⟨a, t, -, hpure⟩ := exists_of_run_bind hrun
        cases hpure
        exact hreads.elementType_eq a
      · obtain ⟨d, t, -, hpure⟩ := exists_of_run_bind hrun
        cases hpure
        rfl
      · obtain ⟨xs, t, -, hpure⟩ := exists_of_run_bind hrun
        cases hpure
        rfl
      · obtain ⟨code, t, -, hrest⟩ := exists_of_run_bind hrun
        obtain ⟨d, u, -, hpure⟩ := exists_of_run_bind hrest
        cases hpure
        rfl
      · cases hrun

/-- A value that is read as a whole. -/
theorem Abreast.arrives_read (h : Abreast feed r q) {fuel : Nat} {type : ElementType} {v : Value}
    (hrun : (readValueWithin fuel type).run.run r = (.ok v, s)) : Arrives feed s [.read v] q := by
  obtain ⟨t, hread, hst⟩ := h.readValue_run hrun
  refine ⟨t, ?_, hst⟩
  rw [elementType_of_run hrun]
  exact hread

theorem limits_eq_of_readValue {type : ElementType} {v : Value} (h : r.input.Window feed) (hstate : r.state ≠ .closed)
    (hrun : (readValue type).run.run r = (.ok v, s)) : s.limits = r.limits := by
  have hover : r.Over ⟨feed, r.serial, r.limits⟩ r.pinning := ⟨h, rfl, rfl, rfl, hstate⟩
  have hafter := hover.steady ((local_readValue type).steady)
  rw [hrun] at hafter
  exact hafter.limits_eq

/-- A value that is passed over. -/
theorem Abreast.arrives_skip (h : Abreast feed r q) {fuel : Nat} {type : ElementType} {v : Value}
    (hstate : r.state = .value) (htype : r.currentType = some type)
    (hrun : (readValueWithin fuel type).run.run r = (.ok v, s)) :
    Arrives feed s [.called ⟨.skipValue, ()⟩] q := by
  have hqstate : q.state = .value := h.state_eq.symm.trans hstate
  have hqtype : q.currentType = some type := (h.type_eq (.inr hstate)).symm.trans htype
  have hopen : q.state ≠ .closed := by
    rw [hqstate]
    decide
  -- the second reader can read the value as well, so it can pass over it
  obtain ⟨t, hread, hst⟩ := h.readValue_run hrun
  obtain ⟨hcompleted, -⟩ := finished_of_readValue h.right hqstate hread
  have hlimits := limits_eq_of_readValue h.right hopen hread
  obtain ⟨count, u, hskip, ⟨input, rfl, hinput⟩, hposition⟩ := exists_skipValue_run h.right hqstate hqtype hread
  refine ⟨_, hskip, ?_⟩
  refine ⟨⟨?_, ?_, hst.state_ne, ?_, ?_, ?_⟩, hst.left, hinput.window⟩
  · exact hst.position_eq.trans (hposition.trans hinput.position_eq.symm)
  · exact hst.limits_eq.trans hlimits
  · exact hst.state_eq.trans hcompleted.state_eq
  · have houtside : ¬(s.state = .name ∨ s.state = .value) := by
      rw [hst.state_eq, hcompleted.state_eq, afterContainer]
      split <;> decide
    exact fun hunder => absurd hunder houtside
  · exact hcompleted.frames_eq ▸ hst.frames_eq

/-- Where reading in a number of steps succeeds, any way to go through what is read leads to the same place. -/
structure Toured (fuel : Nat) : Prop where
  value : ∀ {feed r q s type v told}, Abreast feed r q → r.state = .value → r.currentType = some type →
    (readValueWithin fuel type).run.run r = (.ok v, s) → ToursValue v told → Arrives feed s told q
  document : ∀ {feed r q s d told}, Abreast feed r q →
    (readDocumentWithin fuel).run.run r = (.ok d, s) → ToursFields d.entries told →
      Arrives feed s (.called ⟨.startDocument, ()⟩ :: told ++ [.called ⟨.endDocument, ()⟩]) q
  /-- Which fields are added to a document does not depend on the way. -/
  fields : ∀ {r s d d'}, (readFieldsWithin fuel d).run.run r = (.ok d', s) →
    ∃ fields, d'.entries = d.entries ++ fields ∧
      ∀ {feed q told}, Abreast feed r q → ToursFields fields told → Arrives feed s told q
  array : ∀ {feed r q s xs told}, Abreast feed r q → (readArrayWithin fuel).run.run r = (.ok xs, s) →
    ToursItems xs told →
      Arrives feed s (.called ⟨.startArray, ()⟩ :: told ++ [.called ⟨.endArray, ()⟩]) q
  items : ∀ {feed r q s xs told}, Abreast feed r q → (readItemsWithin fuel).run.run r = (.ok xs, s) →
    ToursItems xs told → Arrives feed s told q

variable {fuel : Nat} {told : List Told}

theorem Toured.readDocument (h : Toured fuel) {d : Document} (habreast : Abreast feed r q)
    (hrun : (readDocumentWithin (fuel + 1)).run.run r = (.ok d, s)) (htour : ToursFields d.entries told) :
    Arrives feed s (.called ⟨.startDocument, ()⟩ :: told ++ [.called ⟨.endDocument, ()⟩]) q := by
  rw [readDocumentWithin] at hrun
  obtain ⟨_, u, hstart, hrun⟩ := exists_of_run_bind hrun
  obtain ⟨d', w, hfields, hrun⟩ := exists_of_run_bind hrun
  obtain ⟨_, x, hend, hpure⟩ := exists_of_run_bind hrun
  cases hpure
  obtain ⟨fields, hentries, hinside⟩ := h.fields hfields
  rw [hentries] at htour
  refine (habreast.arrives_call .startDocument hstart).trans fun _ h' => ?_
  exact (hinside h' htour).trans fun _ h' => h'.arrives_call .endDocument hend

theorem Toured.readArray (h : Toured fuel) {xs : List Value} (habreast : Abreast feed r q)
    (hrun : (readArrayWithin (fuel + 1)).run.run r = (.ok xs, s)) (htour : ToursItems xs told) :
    Arrives feed s (.called ⟨.startArray, ()⟩ :: told ++ [.called ⟨.endArray, ()⟩]) q := by
  rw [readArrayWithin] at hrun
  obtain ⟨_, u, hstart, hrun⟩ := exists_of_run_bind hrun
  obtain ⟨xs', w, hitems, hrun⟩ := exists_of_run_bind hrun
  obtain ⟨_, x, hend, hpure⟩ := exists_of_run_bind hrun
  cases hpure
  refine (habreast.arrives_call .startArray hstart).trans fun _ h' => ?_
  exact (h.items h' hitems htour).trans fun _ h' => h'.arrives_call .endArray hend

/-- An element: its tag, its name in some way, and its value in some way. -/
theorem Toured.element (h : Toured fuel) {u w : Reader} {type : ElementType} {v : Value} {named : Told}
    (habreast : Abreast feed r q) (htype : readType.run.run r = (.ok type, u))
    (hannounced : u.input.Window feed → Announced feed u w)
    (hname : ∀ {q'}, Abreast feed u q' → Arrives feed w [named] q')
    (hvalue : (readValueWithin fuel type).run.run w = (.ok v, s)) (htour : ToursValue v told) :
    Arrives feed s (.called ⟨.readType, v.elementType⟩ :: named :: told) q := by
  rw [elementType_of_run hvalue]
  refine (habreast.arrives_call .readType htype).trans fun _ h' => ?_
  obtain ⟨-, -, hstate, hkept⟩ := hannounced h'.left
  refine (hname h').trans fun _ h' => h.value h' hstate ?_ hvalue htour
  exact hkept.trans (currentType_of_readType_run htype)

theorem Toured.readFields (h : Toured fuel) {d d' : Document}
    (hrun : (readFieldsWithin (fuel + 1) d).run.run r = (.ok d', s)) :
    ∃ fields, d'.entries = d.entries ++ fields ∧
      ∀ {feed q told}, Abreast feed r q → ToursFields fields told → Arrives feed s told q := by
  rw [readFieldsWithin, run_bind_ok (offset_run r)] at hrun
  obtain ⟨type, u, htype, hrun⟩ := exists_of_run_bind hrun
  split at hrun
  · next hends =>
      cases hrun
      refine ⟨[], (List.append_nil _).symm, fun habreast htour => ?_⟩
      cases htour
      rw [← hends]
      exact habreast.arrives_call .readType htype
  · obtain ⟨name, w, hname, hrun⟩ := exists_of_run_bind hrun
    obtain ⟨hcontains, hrun⟩ := of_run_check (fails_throw _ _) hrun
    obtain ⟨v, x, hvalue, hrest⟩ := exists_of_run_bind hrun
    obtain ⟨fields, hentries, hlater⟩ := h.fields hrest
    rw [Record.entries_insert (Bool.eq_false_iff.2 hcontains), List.append_assoc] at hentries
    refine ⟨(name, v) :: fields, hentries, fun habreast htour => ?_⟩
    cases htour with
    | cons hnamed hinside houtside =>
        refine (h.element habreast htype (announced_of_readName · hname) ?_ hvalue hinside).trans fun _ h' => ?_
        · exact fun h' => h'.arrives_name hname hnamed
        · exact hlater h' houtside

theorem Toured.readItems (h : Toured fuel) {xs : List Value} (habreast : Abreast feed r q)
    (hrun : (readItemsWithin (fuel + 1)).run.run r = (.ok xs, s)) (htour : ToursItems xs told) :
    Arrives feed s told q := by
  rw [readItemsWithin] at hrun
  obtain ⟨type, u, htype, hrun⟩ := exists_of_run_bind hrun
  split at hrun
  · next hends =>
      cases hrun
      cases htour
      rw [← hends]
      exact habreast.arrives_call .readType htype
  · obtain ⟨_, w, hskip, hrun⟩ := exists_of_run_bind hrun
    obtain ⟨v, x, hvalue, hrun⟩ := exists_of_run_bind hrun
    obtain ⟨rest, y, hitems, hpure⟩ := exists_of_run_bind hrun
    cases hpure
    cases htour with
    | cons hinside houtside =>
        refine (h.element habreast htype (announced_of_skipName · hskip) ?_ hvalue hinside).trans fun _ h' => ?_
        · exact fun h' => h'.arrives_item hskip
        · exact h.items h' hitems houtside

/-- A value that is no container. -/
theorem Abreast.arrives_heard (h : Abreast feed r q) {v : Value} {call : Call} {k : call.Result → Value}
    (hk : ∀ a, heardValue (k a) = [⟨call, a⟩]) (hrun : (do return k (← call.read)).run.run r = (.ok v, s))
    (hskip : Arrives feed s [.called ⟨.skipValue, ()⟩] q) (hread : Arrives feed s [.read v] q)
    (htour : ToursValue v told) : Arrives feed s told q := by
  obtain ⟨a, t, hcall, hpure⟩ := exists_of_run_bind hrun
  cases hpure
  obtain rfl | rfl | rfl := htour.of_heard (hk a)
  · exact hskip
  · exact hread
  · exact h.arrives_call call hcall

theorem Toured.readValue (h : Toured fuel) {type : ElementType} {v : Value} (habreast : Abreast feed r q)
    (hstate : r.state = .value) (htype : r.currentType = some type)
    (hrun : (readValueWithin (fuel + 1) type).run.run r = (.ok v, s)) (htour : ToursValue v told) :
    Arrives feed s told q := by
  have hskip := habreast.arrives_skip hstate htype hrun
  have hread := habreast.arrives_read hrun
  have hscalar (call : Call) (k : call.Result → Value) (hk : ∀ a, heardValue (k a) = [⟨call, a⟩])
      (hrun : (do return k (← call.read)).run.run r = (.ok v, s)) : Arrives feed s told q :=
    habreast.arrives_heard hk hrun hskip hread htour
  unfold readValueWithin at hrun
  cases type with
  | double => exact hscalar .readDouble _ (fun _ => rfl) hrun
  | string => exact hscalar .readString _ (fun _ => rfl) hrun
  | document =>
      obtain ⟨d, t, hdocument, hpure⟩ := exists_of_run_bind hrun
      cases hpure
      cases htour with
      | skip => exact hskip
      | read => exact hread
      | call hone => simp [heardValue, documentEnd] at hone
      | document hinside => exact h.document habreast hdocument hinside
  | array =>
      obtain ⟨xs, t, harray, hpure⟩ := exists_of_run_bind hrun
      cases hpure
      cases htour with
      | skip => exact hskip
      | read => exact hread
      | call hone => simp [heardValue, arrayEnd] at hone
      | array hinside => exact h.array habreast harray hinside
  | binary => exact hscalar .readBinary (fun given => .binary given.1 given.2) (fun _ => rfl) hrun
  | undefined => exact hscalar .readUndefined (fun _ => .undefined) (fun _ => rfl) hrun
  | objectId => exact hscalar .readObjectId _ (fun _ => rfl) hrun
  | boolean => exact hscalar .readBoolean _ (fun _ => rfl) hrun
  | dateTime => exact hscalar .readDateTime _ (fun _ => rfl) hrun
  | null => exact hscalar .readNull (fun _ => .null) (fun _ => rfl) hrun
  | regularExpression =>
      exact hscalar .readRegularExpression (fun given => .regularExpression given.1 given.2) (fun _ => rfl) hrun
  | dbPointer => exact hscalar .readDbPointer (fun given => .dbPointer given.1 given.2) (fun _ => rfl) hrun
  | javaScript => exact hscalar .readJavaScript _ (fun _ => rfl) hrun
  | symbol => exact hscalar .readSymbol _ (fun _ => rfl) hrun
  | scopedCode =>
      obtain ⟨code, t, hcode, hrest⟩ := exists_of_run_bind hrun
      obtain ⟨d, u, hscope, hpure⟩ := exists_of_run_bind hrest
      cases hpure
      cases htour with
      | skip => exact hskip
      | read => exact hread
      | call hone => simp [heardValue] at hone
      | scopedCode hinside =>
          refine (habreast.arrives_call .readScopedCode hcode).trans fun _ h' => ?_
          exact h.document h' hscope hinside
  | int32 => exact hscalar .readInt32 _ (fun _ => rfl) hrun
  | timestamp => exact hscalar .readTimestamp (fun given => .timestamp given.1 given.2) (fun _ => rfl) hrun
  | int64 => exact hscalar .readInt64 _ (fun _ => rfl) hrun
  | decimal128 => exact hscalar .readDecimal128 _ (fun _ => rfl) hrun
  | minKey => exact hscalar .readMinKey (fun _ => .minKey) (fun _ => rfl) hrun
  | maxKey => exact hscalar .readMaxKey (fun _ => .maxKey) (fun _ => rfl) hrun
  | endOfDocument => cases hrun

theorem toured (fuel : Nat) : Toured fuel := by
  induction fuel with
  | zero =>
      have hnone {α : Type} {r s : Reader} {a : α} : (onInput Replay.outOfBytes).run.run r ≠ (.ok a, s) :=
        (fails_outOfBytes r).ne_ok
      exact ⟨fun _ _ _ hrun => absurd hrun hnone, fun _ hrun => absurd hrun hnone, fun hrun => absurd hrun hnone,
        fun _ hrun => absurd hrun hnone, fun _ hrun => absurd hrun hnone⟩
  | succ fuel ih => exact ⟨ih.readValue, ih.readDocument, ih.readFields, ih.readArray, ih.readItems⟩

/-- A property of where a reader stands holds at the end of any way, if it holds where reading ends. -/
theorem Arrives.tells (h : Arrives feed s told q) :
    Tells (fun p => p.position = s.position ∧ p.state = s.state) told q :=
  Tells.imp h fun _ hst => ⟨hst.position_eq.symm, hst.state_eq.symm⟩

theorem isClosed_eq_of_run {α : Type} {e : WireError} {x : Read α} (hx : Barred e x) {a : α}
    (hrun : x.run.run r = (.ok a, s)) : r.isClosed = false := by
  by_contra hclosed
  rw [hx r (Bool.eq_true_of_not_eq_false hclosed)] at hrun
  cases hrun

end Reader

namespace Client

variable {o : Opening} {c : Client} {t : Reader} {told : List Told}

theorem Sound.tells_value (h : c.Sound o) {type : ElementType} {v : Value} (hstate : c.reader.state = .value)
    (htype : c.reader.currentType = some type) (hread : (Reader.readValue type).run.run c.reader = (.ok v, t))
    (htour : ToursValue v told) : Tells (fun p => p.position = t.position ∧ p.state = t.state) told c.reader := by
  rw [Reader.readValue] at hread
  have hself := Reader.abreast_self h.reader_over.window h.reader_over.state_ne
  exact ((Reader.toured _).value hself hstate htype (Reader.of_run_get hread) htour).tells

theorem Sound.tells_document (h : c.Sound o) {d : Document}
    (hread : Reader.readDocument.run.run c.reader = (.ok d, t)) (htour : ToursFields d.entries told) :
    Tells (fun p => p.position = t.position ∧ p.state = t.state)
      (.called ⟨.startDocument, ()⟩ :: told ++ [.called ⟨.endDocument, ()⟩]) c.reader := by
  rw [Reader.readDocument] at hread
  have hself := Reader.abreast_self h.reader_over.window h.reader_over.state_ne
  exact ((Reader.toured _).document hself (Reader.of_run_get hread) htour).tells

/-- Passing over a value and passing over a name lead where reading them leads, wherever that succeeds. So do all the
ways through a value and through a document, and what is read on them is what reading it as a whole gives. -/
theorem skip_agrees (source : Source) (limits : Limits) (serial : Nat) {foreign : Nat → Option Bookmark}
    (hforeign : ∀ slot b, foreign slot = some b → b.reader ≠ serial) (before : List Action) {c : Client}
    (hc : c = ((ofSource source limits serial foreign).perform before).2) :
    (∀ type v t, c.reader.state = .value → c.reader.currentType = some type →
      (Reader.readValue type).run.run c.reader = (.ok v, t) →
        (∃ p, Reader.skipValue.run.run c.reader = (.ok (), p) ∧ p.position = t.position ∧ p.state = t.state ∧
          p.frames = t.frames ∧
          (∀ later, (perform { c with reader := p } later).1.map (Sight.through fun f => f.unnamed.unplaced) =
            (perform { c with reader := t } later).1.map (Sight.through fun f => f.unnamed.unplaced)) ∧
          (c.reader.frames ≠ [] → ∀ later,
            (perform { c with reader := p } later).1.map (Sight.through Reader.Face.unnamed) =
              (perform { c with reader := t } later).1.map (Sight.through Reader.Face.unnamed))) ∧
        ∀ told, ToursValue v told →
          Tells (fun p => p.position = t.position ∧ p.state = t.state) told c.reader) ∧
      (∀ name t, Reader.readName.run.run c.reader = (.ok name, t) →
        Reader.skipName.run.run c.reader = (.ok (), { t with currentName := none })) ∧
      ∀ d t, Reader.readDocument.run.run c.reader = (.ok d, t) → ∀ told, ToursFields d.entries told →
        Tells (fun p => p.position = t.position ∧ p.state = t.state)
          (.called ⟨.startDocument, ()⟩ :: told ++ [.called ⟨.endDocument, ()⟩]) c.reader := by
  have horderly := hc ▸ (orderly_ofSource source limits serial hforeign).perform before
  refine ⟨fun type v t hstate htype hread => ?_, fun name t hread => Reader.skipName_run_of_readName hread,
    fun d t hread told htour => ?_⟩
  · have hsound := horderly.sound (Reader.isClosed_eq_of_run (Reader.barred_readValue type) hread)
    obtain ⟨p, hskip, hpassed⟩ := hsound.exists_passedFor hstate htype hread
    exact ⟨⟨p, hskip, hpassed.position_eq, hpassed.state_eq, hpassed.frames_eq, hpassed.perform,
      hpassed.perform_nested⟩, fun told htour => hsound.tells_value hstate htype hread htour⟩
  · have hsound := horderly.sound (Reader.isClosed_eq_of_run Reader.barred_readDocument hread)
    exact hsound.tells_document hread htour

/-- A document in a document: one is passed over, read and gone through inside the other. -/
theorem skip_agrees_nested :
    ∃ c : Nat → Client,
      (∀ n, c n = ((ofSource (.ofBytes [16, 0, 0, 0, 3, 97, 0, 8, 0, 0, 0, 10, 98, 0, 0, 0]) {} 0 fun _ => none).perform
        ([.operate (.call .startDocument), .operate (.call .readType), .operate (.call .readName)].take n)).2) ∧
      (∃ p t v, (Reader.readValue .document).run.run (c 3).reader = (.ok v, t) ∧
        Reader.skipValue.run.run (c 3).reader = (.ok (), p) ∧ (p.position = 15 ∧ t.position = 15) ∧
        (∀ later, (perform { c 3 with reader := p } later).1.map (Sight.through Reader.Face.unnamed) =
          (perform { c 3 with reader := t } later).1.map (Sight.through Reader.Face.unnamed)) ∧
        ∀ told, ToursValue v told →
          Tells (fun p => p.position = t.position ∧ p.state = t.state) told (c 3).reader) ∧
      (∃ name t, Reader.readName.run.run (c 2).reader = (.ok name, t) ∧
        Reader.skipName.run.run (c 2).reader = (.ok (), { t with currentName := none })) ∧
      ∃ d t, Reader.readDocument.run.run (c 0).reader = (.ok d, t) ∧ ∀ told, ToursFields d.entries told →
        Tells (fun p => p.position = t.position ∧ p.state = t.state)
          (.called ⟨.startDocument, ()⟩ :: told ++ [.called ⟨.endDocument, ()⟩]) (c 0).reader := by
  obtain ⟨c, hc⟩ : ∃ c : Nat → Client, ∀ n, c n =
      ((ofSource (.ofBytes [16, 0, 0, 0, 3, 97, 0, 8, 0, 0, 0, 10, 98, 0, 0, 0]) {} 0 fun _ => none).perform
        ([.operate (.call .startDocument), .operate (.call .readType), .operate (.call .readName)].take n)).2 :=
    ⟨_, fun _ => rfl⟩
  have hforeign : ∀ slot b, (fun _ => none : Nat → Option Bookmark) slot = some b → b.reader ≠ 0 := nofun
  have hagrees (n : Nat) := skip_agrees _ _ 0 hforeign _ (hc n)
  have hok : ((Reader.readValue .document).run.run (c 3).reader).1.isOk = true ∧
      (Reader.readName.run.run (c 2).reader).1.isOk = true ∧
      (Reader.readDocument.run.run (c 0).reader).1.isOk = true := by
    rw [hc, hc, hc]
    decide +kernel
  have hplaces : (c 3).reader.state = .value ∧ (c 3).reader.currentType = some .document ∧
      (c 3).reader.frames ≠ [] ∧ ((Reader.readValue .document).run.run (c 3).reader).2.position = 15 := by
    rw [hc]
    decide +kernel
  obtain ⟨hstate, htype, hframes, hposition⟩ := hplaces
  obtain ⟨hvalue, hname, hdocument⟩ := hok
  refine ⟨c, hc, ?_, ?_, ?_⟩
  · rcases hrun : (Reader.readValue .document).run.run (c 3).reader with ⟨e | v, t⟩
    · rw [hrun] at hvalue
      cases hvalue
    · obtain ⟨⟨p, hskip, hplace, -, -, -, hlater⟩, htours⟩ := (hagrees 3).1 .document v t hstate htype hrun
      rw [hrun] at hposition
      exact ⟨p, t, v, rfl, hskip, ⟨hplace.trans hposition, hposition⟩, hlater hframes, htours⟩
  · rcases hrun : Reader.readName.run.run (c 2).reader with ⟨e | name, t⟩
    · rw [hrun] at hname
      cases hname
    · exact ⟨name, t, rfl, (hagrees 2).2.1 name t hrun⟩
  · rcases hrun : Reader.readDocument.run.run (c 0).reader with ⟨e | d, t⟩
    · rw [hrun] at hdocument
      cases hdocument
    · exact ⟨d, t, rfl, (hagrees 0).2.2 d t hrun⟩

/-- A document that is passed over at the top level is not forgotten, so a reader that is closed then stands where what
it has kept begins. -/
theorem skip_agrees_atTop_ne :
    ∃ c p t v, c = ((ofSource (.ofBytes [5, 0, 0, 0, 0]) {} 0 fun _ => none).perform [.operate (.call .readType)]).2 ∧
      (c.reader.state = .value ∧ c.reader.currentType = some .document) ∧
      (Reader.readValue .document).run.run c.reader = (.ok v, t) ∧
      Reader.skipValue.run.run c.reader = (.ok (), p) ∧
      (t.close.position = 5 ∧ p.close.position = 0) ∧
      (perform { c with reader := p } [.close]).1.map (Sight.through Reader.Face.unnamed) ≠
        (perform { c with reader := t } [.close]).1.map (Sight.through Reader.Face.unnamed) := by
  obtain ⟨c, hc⟩ : ∃ c, c = ((ofSource (.ofBytes [5, 0, 0, 0, 0]) {} 0 fun _ => none).perform
    [.operate (.call .readType)]).2 := ⟨_, rfl⟩
  have hread : ((Reader.readValue .document).run.run c.reader).1.isOk = true := by
    rw [hc]
    decide +kernel
  have hskip : (Reader.skipValue.run.run c.reader).1.isOk = true := by
    rw [hc]
    decide +kernel
  have hplaces : ((Reader.readValue .document).run.run c.reader).2.close.position = 5 ∧
      (Reader.skipValue.run.run c.reader).2.close.position = 0 := by
    rw [hc]
    decide +kernel
  have hstate : c.reader.state = .value ∧ c.reader.currentType = some .document := by
    rw [hc]
    decide +kernel
  rcases hrun : (Reader.readValue .document).run.run c.reader with ⟨e | v, t⟩
  · rw [hrun] at hread
    cases hread
  rcases hrun' : Reader.skipValue.run.run c.reader with ⟨e | _, p⟩
  · rw [hrun'] at hskip
    cases hskip
  rw [hrun, hrun'] at hplaces
  refine ⟨c, p, t, v, hc, hstate, hrun, hrun', hplaces, fun heq => ?_⟩
  obtain ⟨hsight, -⟩ := List.cons.inj heq
  have hposition := congrArg Reader.Face.position (Sight.closed.inj hsight)
  exact absurd (hplaces.2.symm.trans (hposition.trans hplaces.1)) (by decide)

end Client

end Aggregation.Wire
