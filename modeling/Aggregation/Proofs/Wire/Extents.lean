import Aggregation.Proofs.Wire.Moves

/-! How far values extend. A value is passed over by the length in front of it or by the size of its type, and it is
read piece by piece; where reading it succeeds, both come to the same place. A container ends where it declares to end,
for that is checked when it is closed. -/

namespace Aggregation.Wire

open Stepping

namespace ReplayBuffer

variable {feed : Feed} {b b' b'' : ReplayBuffer} {count count' : Nat}

/-- From one buffer to another the cursor has passed a number of bytes, and nothing has been forgotten. -/
structure Ahead (feed : Feed) (count : Nat) (b b' : ReplayBuffer) : Prop where
  reaches : Reaches feed b (b.position + count) b'
  base_eq : b'.base = b.base

theorem Ahead.window (h : Ahead feed count b b') : b'.Window feed := h.reaches.window

theorem Ahead.position_eq (h : Ahead feed count b b') : b'.position = b.position + count := h.reaches.position_eq

theorem Ahead.trans (h : Ahead feed count b b') (h' : Ahead feed count' b' b'') :
    Ahead feed (count + count') b b'' := by
  refine ⟨?_, h'.base_eq.trans h.base_eq⟩
  have hreaches := h.reaches.trans h'.reaches
  rwa [h.position_eq, Nat.add_assoc] at hreaches

theorem Window.ahead_self (h : b.Window feed) : Ahead feed 0 b b := ⟨h.reaches_self, rfl⟩

end ReplayBuffer

namespace Replay

open ReplayBuffer

variable {feed : Feed} {b b' : ReplayBuffer} {α : Type} {a : α} {count : Nat}

/-- A step that succeeds passes over bytes and forgets none. -/
theorem Steady.exists_ahead {x : Replay α} (hx : x.Steady) (h : b.Window feed) (hrun : x.run.run b = (.ok a, b')) :
    ∃ count, Ahead feed count b b' := by
  obtain ⟨result, next, hnext, hsettles⟩ := hx.settles feed b.position
  obtain ⟨b'', hrun', hreaches⟩ := hsettles b h rfl
  cases hrun.symm.trans hrun'
  have hbase := hx.keeps b
  rw [hrun] at hbase
  refine ⟨next - b.position, ?_, hbase⟩
  rwa [Nat.add_sub_cancel' hnext]

theorem Steady.ahead {x : Replay α} (hx : x.Steady) (h : b.Window feed) (hrun : x.run.run b = (.ok a, b'))
    (hposition : b'.position = b.position + count) : Ahead feed count b b' := by
  obtain ⟨count', hahead⟩ := hx.exists_ahead h hrun
  obtain rfl : count' = count := by
    have hcount := hahead.position_eq
    omega
  exact hahead

theorem position_of_natural_run {n : Nat} (h : b.Window feed) (hrun : (natural count).run.run b = (.ok n, b')) :
    b'.position = b.position + count := by
  obtain ⟨given, b₁, hbytes, hn⟩ := exists_of_run_bind hrun
  cases hn
  exact position_of_bytes_run h hbytes

theorem position_of_int64_run {n : Int64} (h : b.Window feed) (hrun : int64.run.run b = (.ok n, b')) :
    b'.position = b.position + 8 := by
  obtain ⟨m, b₁, hnatural, hn⟩ := exists_of_run_bind hrun
  cases hn
  exact position_of_natural_run h hnatural

theorem position_of_byte_run {tag : UInt8} (h : b.Window feed) (hrun : byte.run.run b = (.ok tag, b')) :
    b'.position = b.position + 1 := by
  rcases Nat.lt_or_ge b.position feed.bytes.length with hlt | hle
  · obtain ⟨b'', hrun', hreaches⟩ := settles_byte_of_lt hlt b h rfl
    cases hrun.symm.trans hrun'
    exact hreaches.position_eq
  · have hlt : feed.bytes.length < b.position + 1 := Nat.lt_succ_of_le hle
    obtain ⟨b'', hrun', -⟩ := settles_demand_of_lt _ hlt b h rfl
    have hfails : byte.run.run b = (.error feed.shortage, b'') := hrun'
    cases hrun.symm.trans hfails

end Replay

namespace Reader

open Read

variable {feed : Feed} {r s t : Reader} {α β : Type} {a : α} {type : ElementType} {count count' : Nat} {n : Int32}

/-- A reader that has passed over a number of bytes, and of which nothing else has changed. -/
def Ahead (feed : Feed) (count : Nat) (r t : Reader) : Prop :=
  ∃ input, t = { r with input } ∧ r.input.Ahead feed count input

theorem Ahead.input (h : r.Ahead feed count t) : r.input.Ahead feed count t.input := by
  obtain ⟨input, rfl, hinput⟩ := h
  exact hinput

theorem Ahead.window (h : r.Ahead feed count t) : t.input.Window feed := h.input.window

theorem Ahead.position_eq (h : r.Ahead feed count t) : t.position = r.position + count := h.input.position_eq

theorem Ahead.trans (h : r.Ahead feed count s) (h' : s.Ahead feed count' t) : r.Ahead feed (count + count') t := by
  obtain ⟨input, rfl, hinput⟩ := h
  obtain ⟨input', rfl, hinput'⟩ := h'
  exact ⟨input', rfl, hinput.trans hinput'⟩

theorem ahead_self (h : r.input.Window feed) : r.Ahead feed 0 r := ⟨r.input, rfl, h.ahead_self⟩

theorem exists_ahead_of_onInput {step : Replay α} (hstep : step.Steady) (h : r.input.Window feed)
    (hrun : (onInput step).run.run r = (.ok a, t)) : ∃ count, r.Ahead feed count t := by
  rw [onInput_run] at hrun
  obtain ⟨hresult, rfl⟩ := Prod.mk.inj hrun
  obtain ⟨count, hahead⟩ := hstep.exists_ahead h (Prod.ext hresult rfl)
  exact ⟨count, _, rfl, hahead⟩

/-- A step of which is known how many bytes it takes. -/
theorem ahead_of_onInput {step : Replay α} (hstep : step.Steady)
    (hposition : ∀ {a b b'}, ReplayBuffer.Window feed b → step.run.run b = (.ok a, b') →
      b'.position = b.position + count)
    (h : r.input.Window feed) (hrun : (onInput step).run.run r = (.ok a, t)) : r.Ahead feed count t := by
  rw [onInput_run] at hrun
  obtain ⟨hresult, rfl⟩ := Prod.mk.inj hrun
  have hread : step.run.run r.input = (.ok a, (step.run.run r.input).2) := Prod.ext hresult rfl
  exact ⟨_, rfl, hstep.ahead h hread (hposition h hread)⟩

theorem ahead_of_bytes {given : List UInt8} (h : r.input.Window feed)
    (hrun : (onInput (Replay.bytes count)).run.run r = (.ok given, t)) : r.Ahead feed count t :=
  ahead_of_onInput (Replay.steady_bytes count) Replay.position_of_bytes_run h hrun

theorem ahead_of_natural {n : Nat} (h : r.input.Window feed)
    (hrun : (onInput (Replay.natural count)).run.run r = (.ok n, t)) : r.Ahead feed count t :=
  ahead_of_onInput (Replay.steady_natural count) Replay.position_of_natural_run h hrun

theorem ahead_of_int32 (h : r.input.Window feed) (hrun : (onInput Replay.int32).run.run r = (.ok n, t)) :
    r.Ahead feed 4 t :=
  ahead_of_onInput Replay.steady_int32 Replay.position_of_int32_run h hrun

theorem ahead_of_byte {tag : UInt8} (h : r.input.Window feed)
    (hrun : (onInput Replay.byte).run.run r = (.ok tag, t)) : r.Ahead feed 1 t :=
  ahead_of_onInput Replay.steady_byte Replay.position_of_byte_run h hrun

/-! ## Lengths -/

/-- What follows a check that has been passed. -/
theorem of_run_check {c : Prop} [Decidable c] {x : Read Unit} {k : Unit → Read β} {b : β} (hx : Fails x r)
    (hrun : (if c then x >>= k else k ()).run.run r = (.ok b, t)) : ¬c ∧ (k ()).run.run r = (.ok b, t) := by
  split at hrun
  · exact absurd hrun (hx.bind k).ne_ok
  · next hc => exact ⟨hc, hrun⟩

theorem length_run_iff {minimum : Int} : (length minimum).run.run r = (.ok n, t) ↔
    (onInput Replay.int32).run.run r = (.ok n, t) ∧ minimum ≤ n.toInt ∧ n.toInt ≤ r.limits.maxDocumentSize := by
  rw [length, run_bind_ok (offset_run r)]
  rcases hread : (onInput Replay.int32).run.run r with ⟨e | m, s⟩
  · rw [run_bind_error hread]
    exact ⟨nofun, fun h => nomatch h.1⟩
  · have hlimits : s.limits = r.limits := by
      rw [onInput_run] at hread
      obtain ⟨-, rfl⟩ := Prod.mk.inj hread
      rfl
    rw [run_bind_ok hread]
    constructor
    · intro h
      obtain ⟨hminimum, h⟩ := of_run_check (fails_throw _ _) h
      rw [run_bind_ok (run_get s)] at h
      obtain ⟨hlimit, h⟩ := of_run_check (fails_throw _ _) h
      cases h
      rw [← hlimits]
      exact ⟨rfl, by omega, by omega⟩
    · rintro ⟨h, hminimum, hlimit⟩
      cases h
      rw [if_neg (by omega), run_bind_ok (run_get t), hlimits, if_neg (by omega)]
      rfl

theorem length_of_le {minimum minimum' : Int} (hrun : (length minimum).run.run r = (.ok n, t))
    (hle : minimum' ≤ n.toInt) : (length minimum').run.run r = (.ok n, t) := by
  obtain ⟨hread, -, hlimit⟩ := length_run_iff.1 hrun
  exact length_run_iff.2 ⟨hread, hle, hlimit⟩

theorem ahead_of_length {minimum : Int} (h : r.input.Window feed)
    (hrun : (length minimum).run.run r = (.ok n, t)) : r.Ahead feed 4 t :=
  ahead_of_int32 h (length_run_iff.1 hrun).1

/-! ## Passing over a value -/

/-- A value of a type takes a number of bytes here if it is passed over. -/
def Spans (feed : Feed) (type : ElementType) (count : Nat) (r : Reader) : Prop :=
  ∃ size head s, (skippedSize type).run.run r = (.ok size, s) ∧ r.Ahead feed head s ∧ head + size = count

theorem spans_of_pure {size : Nat} (h : r.input.Window feed) (hsize : skippedSize type = pure size) :
    r.Spans feed type size :=
  ⟨size, 0, r, by rw [hsize, run_pure], ahead_self h, Nat.zero_add size⟩

theorem spans_of_length {minimum : Int} {g : Int32 → Nat} (h : r.input.Window feed)
    (hsize : skippedSize type = (do return g (← length minimum)))
    (hrun : (length minimum).run.run r = (.ok n, s)) : r.Spans feed type (4 + g n) :=
  ⟨g n, 4, s, by rw [hsize, run_bind_ok hrun, run_pure], ahead_of_length h hrun, rfl⟩

theorem exists_skip_run (h : r.input.Window feed) (hle : r.position + count ≤ feed.bytes.length) :
    ∃ t, (onInput (Replay.skip count)).run.run r = (.ok (), t) ∧ r.Ahead feed count t := by
  obtain ⟨input, hrun, hreaches⟩ := Replay.settles_skip_of_le hle r.input h rfl
  refine ⟨{ r with input }, by rw [onInput_run, hrun], input, rfl, ?_⟩
  exact (Replay.steady_skip count).ahead h hrun hreaches.position_eq

theorem endValue_run_eq (r : Reader) :
    endValue.run.run r = (.ok (), { r with state := afterContainer r.frames }) := rfl

theorem ensureOpen_run_of_window (h : r.input.Window feed) (hstate : r.state ≠ .closed) :
    ensureOpen.run.run r = (.ok (), r) := by
  simp only [ensureOpen, run_bind, run_get, isClosed, h.isReleased_eq, hstate, decide_false, Bool.or_self,
    Bool.false_eq_true, reduceIte, run_pure]

/-- If there are as many bytes as a value takes, then it can be passed over. -/
theorem Spans.exists_skipValue_run (hspans : r.Spans feed type count) (h : r.input.Window feed)
    (hstate : r.state = .value) (htype : r.currentType = some type)
    (hle : r.position + count ≤ feed.bytes.length) :
    ∃ s, skipValue.run.run r = (.ok (), { s with state := afterContainer r.frames }) ∧ r.Ahead feed count s := by
  obtain ⟨size, head, s, hsize, hhead, rfl⟩ := hspans
  have hle' : s.position + size ≤ feed.bytes.length := by
    rw [hhead.position_eq]
    omega
  obtain ⟨t, hskip, htail⟩ := exists_skip_run hhead.window hle'
  have hahead := hhead.trans htail
  refine ⟨t, ?_, hahead⟩
  have hframes : t.frames = r.frames := by
    obtain ⟨input, rfl, -⟩ := hahead
    rfl
  rw [skipValue, run_bind_ok (ensureOpen_run_of_window h (by rw [hstate]; decide)), run_bind_ok (run_get r),
    if_neg (not_not.2 hstate), run_bind_ok (run_get r), htype]
  dsimp only
  rw [run_bind_ok hsize, run_bind_ok hskip, endValue_run_eq, hframes]

/-! ## Reading what is passed over -/

/-- What reads the content of a value takes as many bytes as its type is passed over by. -/
def Measures (type : ElementType) (payload : Read α) : Prop :=
  ∀ {feed : Feed} {r t : Reader} {a : α}, r.input.Window feed → payload.run.run r = (.ok a, t) →
    ∃ count, r.Spans feed type count ∧ r.Ahead feed count t

theorem measures_fixed {payload : Read α} {size : Nat} (hsize : skippedSize type = pure size)
    (hpayload : ∀ {feed : Feed} {r t : Reader} {a : α}, r.input.Window feed → payload.run.run r = (.ok a, t) →
      r.Ahead feed size t) : Measures type payload :=
  fun h hrun => ⟨size, spans_of_pure h hsize, hpayload h hrun⟩

/-- What is made of what has been read takes no bytes. -/
theorem Measures.map {payload : Read α} (hpayload : Measures type payload) (g : α → β) :
    Measures type (do return g (← payload)) := by
  intro feed r t b h hrun
  obtain ⟨a, s, hread, hrest⟩ := exists_of_run_bind hrun
  cases hrest
  exact hpayload h hread

theorem measures_natural {size : Nat} (hsize : skippedSize type = pure size) :
    Measures type (onInput (Replay.natural size)) :=
  measures_fixed hsize ahead_of_natural

theorem measures_int32 : Measures .int32 (onInput Replay.int32) := measures_fixed rfl ahead_of_int32

theorem measures_int64 (hsize : skippedSize type = pure 8) : Measures type (onInput Replay.int64) :=
  measures_fixed hsize (ahead_of_onInput Replay.steady_int64 Replay.position_of_int64_run)

theorem measures_nothing (hsize : skippedSize type = pure 0) : Measures type (pure a : Read α) :=
  measures_fixed hsize fun h hrun => by
    cases hrun
    exact ahead_self h

theorem measures_boolean : Measures .boolean booleanPayload := by
  refine measures_fixed rfl fun {feed r t} b h hrun => ?_
  rw [booleanPayload, run_bind_ok (offset_run r)] at hrun
  obtain ⟨byte, s, hread, hrest⟩ := exists_of_run_bind hrun
  obtain rfl : t = s := by
    split at hrest
    · cases hrest
      rfl
    · split at hrest
      · cases hrest
        rfl
      · cases hrest
  exact ahead_of_byte h hread

theorem ahead_of_objectId {id : ObjectId} (h : r.input.Window feed)
    (hrun : objectIdPayload.run.run r = (.ok id, t)) : r.Ahead feed 12 t := by
  obtain ⟨given, s, hread, hrest⟩ := exists_of_run_bind hrun
  obtain rfl : t = s := by
    split at hrest
    · cases hrest
      rfl
    · cases hrest
  exact ahead_of_bytes h hread

theorem measures_decimal128 : Measures .decimal128 decimal128Payload := by
  refine measures_fixed rfl fun {feed r t} d h hrun => ?_
  obtain ⟨given, s, hread, hrest⟩ := exists_of_run_bind hrun
  obtain rfl : t = s := by
    split at hrest
    · cases hrest
      rfl
    · cases hrest
  exact ahead_of_bytes h hread

/-- A string takes its length and as many bytes as that says. -/
theorem ahead_of_string {text : String} (h : r.input.Window feed) (hrun : stringPayload.run.run r = (.ok text, t)) :
    ∃ n s, (length 1).run.run r = (.ok n, s) ∧ r.Ahead feed (4 + n.toInt.toNat) t := by
  rw [stringPayload, run_bind_ok (offset_run r)] at hrun
  obtain ⟨n, s, hlength, hrest⟩ := exists_of_run_bind hrun
  obtain ⟨given, u, hread, hrest⟩ := exists_of_run_bind hrest
  have hahead := ahead_of_length h hlength
  obtain rfl : t = u := by
    obtain ⟨-, hrest⟩ := of_run_check (fails_throw _ _) hrest
    split at hrest
    · cases hrest
    · cases hrest
      rfl
  exact ⟨n, s, hlength, hahead.trans (ahead_of_bytes hahead.window hread)⟩

theorem measures_string (hsize : skippedSize type = (do return (← length 1).toInt.toNat)) :
    Measures type stringPayload := by
  intro feed r t text h hrun
  obtain ⟨n, s, hlength, hahead⟩ := ahead_of_string h hrun
  exact ⟨_, spans_of_length h hsize hlength, hahead⟩

theorem measures_dbPointer : Measures .dbPointer (do
    let collection ← stringPayload
    return (collection, ← objectIdPayload)) := by
  intro feed r t given h hrun
  obtain ⟨collection, s, hstring, hrest⟩ := exists_of_run_bind hrun
  obtain ⟨id, u, hid, hrest⟩ := exists_of_run_bind hrest
  cases hrest
  obtain ⟨n, s', hlength, hahead⟩ := ahead_of_string h hstring
  refine ⟨_, spans_of_length h (g := fun n => n.toInt.toNat + 12) rfl hlength, ?_⟩
  exact hahead.trans (ahead_of_objectId hahead.window hid)

theorem measures_binary : Measures .binary binaryPayload := by
  intro feed r t given h hrun
  rw [binaryPayload, run_bind_ok (offset_run r)] at hrun
  obtain ⟨outer, s, hlength, hrest⟩ := exists_of_run_bind hrun
  obtain ⟨subtype, u, hsubtype, hrest⟩ := exists_of_run_bind hrest
  have hlead := ahead_of_length h hlength
  have hhead := hlead.trans (ahead_of_byte hlead.window hsubtype)
  refine ⟨_, spans_of_length h (g := fun n => n.toInt.toNat + 1) rfl hlength, ?_⟩
  split at hrest
  · -- the second length is counted by the first
    obtain ⟨inner, v, hinner, hrest⟩ := exists_of_run_bind hrest
    obtain ⟨hlegacy, hrest⟩ := of_run_check (fails_throw _ _) hrest
    obtain ⟨content, w, hread, hrest⟩ := exists_of_run_bind hrest
    cases hrest
    have hsecond := hhead.trans (ahead_of_int32 hhead.window hinner)
    have hall := hsecond.trans (ahead_of_bytes hsecond.window hread)
    rwa [show 4 + 1 + 4 + inner.toInt.toNat = 4 + (outer.toInt.toNat + 1) by omega] at hall
  · obtain ⟨content, w, hread, hrest⟩ := exists_of_run_bind hrest
    cases hrest
    have hall := hhead.trans (ahead_of_bytes hhead.window hread)
    rwa [show 4 + 1 + outer.toInt.toNat = 4 + (outer.toInt.toNat + 1) by omega] at hall

/-- A part of a regular expression is passed over as it is read. -/
theorem regexPart_of_run {part : String} (h : r.input.Window feed) (hrun : regexPart.run.run r = (.ok part, t)) :
    ∃ count bytes, (onInput Replay.cstring).run.run r = (.ok bytes, t) ∧ r.Ahead feed count t := by
  rw [regexPart, run_bind_ok (offset_run r)] at hrun
  obtain ⟨bytes, s, hread, hrest⟩ := exists_of_run_bind hrun
  obtain rfl : t = s := by
    split at hrest
    · cases hrest
    · cases hrest
      rfl
  obtain ⟨count, hahead⟩ := exists_ahead_of_onInput Replay.steady_cstring h hread
  exact ⟨count, bytes, hread, hahead⟩

theorem measures_regularExpression : Measures .regularExpression (do
    let pattern ← regexPart
    return (pattern, ← regexPart)) := by
  intro feed r t given h hrun
  obtain ⟨pattern, s, hpattern, hrest⟩ := exists_of_run_bind hrun
  obtain ⟨options, u, hoptions, hrest⟩ := exists_of_run_bind hrest
  cases hrest
  obtain ⟨count, bytes, hfirst, hahead⟩ := regexPart_of_run h hpattern
  obtain ⟨count', bytes', hsecond, hahead'⟩ := regexPart_of_run hahead.window hoptions
  have hdiscard {r s : Reader} {bytes : List UInt8} (hrun : (onInput Replay.cstring).run.run r = (.ok bytes, s)) :
      (discard (onInput Replay.cstring)).run.run r = (.ok (), s) := by
    rw [discard_eq_bind, run_bind_ok hrun, run_pure]
  refine ⟨_, ⟨0, _, t, ?_, hahead.trans hahead', Nat.add_zero _⟩, hahead.trans hahead'⟩
  rw [skippedSize, run_bind_ok (hdiscard hfirst), run_bind_ok (hdiscard hsecond), run_pure]

end Reader

end Aggregation.Wire
