import Aggregation.Proofs.Wire.Input
import Aggregation.Wire.Reader

/-! Steps that read bytes of a form. A step consumes a form if it succeeds exactly where the unread bytes begin with
bytes of that form, and then has passed over them and no further. Steps in turn consume the forms one after the
other. -/

namespace Aggregation.Wire

open Stepping ReplayBuffer

variable {σ α β : Type}

/-- A step reads bytes of the forms of its results. What it does beside that to the state is `next`. Bytes of a form
are read if there are fewer than `most` of them, so that a step with a bound on its depth can be described. -/
structure Consumes (input : σ → ReplayBuffer) (most : Nat) (x : ExceptT WireError (StateM σ) α) (s : σ)
    (form : α → List UInt8 → Prop) (next : α → List UInt8 → σ → Prop) : Prop where
  sound : ∀ a s', x.run.run s = (.ok a, s') →
    ∃ bytes, form a bytes ∧ (input s).Advances bytes (input s') ∧ next a bytes s'
  complete : ∀ a bytes rest, form a bytes → bytes.length < most → (input s).unread = bytes ++ rest →
    ∃ s', x.run.run s = (.ok a, s') ∧ (input s).Advances bytes (input s') ∧ next a bytes s'

namespace Consumes

variable {input : σ → ReplayBuffer} {most : Nat} {x : ExceptT WireError (StateM σ) α}
  {f : α → ExceptT WireError (StateM σ) β} {s s' : σ} {form form' : α → List UInt8 → Prop}
  {next next' : α → List UInt8 → σ → Prop} {form₂ : β → List UInt8 → Prop} {next₂ : β → List UInt8 → σ → Prop}

theorem congr (h : Consumes input most x s form next) (hform : ∀ a bytes, form a bytes ↔ form' a bytes) :
    Consumes input most x s form' next := by
  have heq : form = form' := funext fun a => funext fun bytes => propext (hform a bytes)
  exact heq ▸ h

theorem mono (h : Consumes input most x s form next)
    (hnext : ∀ a bytes s', form a bytes → (input s).Advances bytes (input s') → next a bytes s' → next' a bytes s') :
    Consumes input most x s form next' := by
  constructor
  · intro a s' hx
    obtain ⟨bytes, hform, hadvances, ha⟩ := h.sound a s' hx
    exact ⟨bytes, hform, hadvances, hnext a bytes s' hform hadvances ha⟩
  · intro a bytes rest hform hle hunread
    obtain ⟨s', hx, hadvances, ha⟩ := h.complete a bytes rest hform hle hunread
    exact ⟨s', hx, hadvances, hnext a bytes s' hform hadvances ha⟩

theorem le {most' : Nat} (h : Consumes input most x s form next) (hle : most' ≤ most) :
    Consumes input most' x s form next :=
  ⟨h.sound, fun a bytes rest hform hle' => h.complete a bytes rest hform (Nat.lt_of_lt_of_le hle' hle)⟩

/-- A bound that the unread bytes do not reach is none. -/
theorem of_unread {most' : Nat} (h : Consumes input most x s form next) (hlt : (input s).unread.length < most) :
    Consumes input most' x s form next := by
  refine ⟨h.sound, fun a bytes rest hform _ hunread => h.complete a bytes rest hform ?_ hunread⟩
  rw [hunread, List.length_append] at hlt
  omega

/-- Of one state only one result and its bytes can be read. -/
theorem unique (h : Consumes input most x s form next) {a a' : α} {bytes bytes' rest rest' : List UInt8}
    (hform : form a bytes) (hform' : form a' bytes') (hlt : (input s).unread.length < most)
    (hunread : (input s).unread = bytes ++ rest) (hunread' : (input s).unread = bytes' ++ rest') :
    a = a' ∧ bytes = bytes' := by
  have hle : bytes.length < most ∧ bytes'.length < most := by
    constructor
    · rw [hunread, List.length_append] at hlt
      omega
    · rw [hunread', List.length_append] at hlt
      omega
  obtain ⟨t, hx, hadvances, -⟩ := h.complete a bytes rest hform hle.1 hunread
  obtain ⟨t', hx', hadvances', -⟩ := h.complete a' bytes' rest' hform' hle.2 hunread'
  rw [hx] at hx'
  cases hx'
  exact ⟨rfl, List.append_cancel_right (hadvances.unread_eq.symm.trans hadvances'.unread_eq)⟩

/-- A step that runs as another reads the same. -/
theorem of_run_eq {y : ExceptT WireError (StateM σ) α} (hrun : x.run.run s = y.run.run s)
    (hy : Consumes input most y s form next) : Consumes input most x s form next := by
  constructor
  · rw [hrun]
    exact hy.sound
  · rw [hrun]
    exact hy.complete

/-- A step that reads nothing and has a result. -/
theorem of_ok {p : α → Prop} {a : α} (hx : x.run.run s = (.ok a, s')) (hinput : (input s).Advances [] (input s'))
    (hp : ∀ b, p b ↔ b = a) (hnext : next a [] s') :
    Consumes input most x s (fun b bytes => bytes = [] ∧ p b) next := by
  constructor
  · intro b t hb
    rw [hx] at hb
    cases hb
    exact ⟨[], ⟨rfl, (hp _).2 rfl⟩, hinput, hnext⟩
  · rintro b bytes rest ⟨rfl, hb⟩ _ _
    obtain rfl := (hp b).1 hb
    exact ⟨s', hx, hinput, hnext⟩

theorem of_fails (hx : Fails x s) (hform : ∀ a bytes, ¬form a bytes) : Consumes input most x s form next :=
  ⟨fun _ _ ha => absurd ha hx.ne_ok, fun a bytes _ ha => absurd ha (hform a bytes)⟩

/-- A step that gives up reads what has no form of so few bytes. -/
theorem of_short (hx : Fails x s) (hform : ∀ a bytes, form a bytes → most ≤ bytes.length) :
    Consumes input most x s form next :=
  ⟨fun _ _ ha => absurd ha hx.ne_ok, fun a bytes _ ha hlt => absurd (hform a bytes ha) (Nat.not_le.2 hlt)⟩

/-- After a step that reads nothing, what follows reads everything. -/
theorem bind_ok {a : α} (hx : x.run.run s = (.ok a, s')) (hinput : input s' = input s)
    (hf : Consumes input most (f a) s' form₂ next₂) : Consumes input most (x >>= f) s form₂ next₂ := by
  constructor
  · intro b t hb
    rw [run_bind_ok hx] at hb
    rw [← hinput]
    exact hf.sound b t hb
  · intro b bytes rest hform hle hunread
    rw [run_bind_ok hx, ← hinput]
    rw [← hinput] at hunread
    exact hf.complete b bytes rest hform hle hunread

/-- Steps in turn read bytes of the one form and then of the other. -/
theorem bind {g : α → List UInt8 → β → List UInt8 → Prop} (hx : Consumes input most x s form next)
    (hf : ∀ a first s', form a first → (input s).Advances first (input s') → next a first s' →
      Consumes input (most - first.length) (f a) s' (g a first) fun b rest t => next₂ b (first ++ rest) t) :
    Consumes input most (x >>= f) s
      (fun b bytes => ∃ a first rest, form a first ∧ g a first b rest ∧ bytes = first ++ rest) next₂ := by
  constructor
  · intro b t hb
    obtain ⟨a, s', ha, hb⟩ := exists_of_run_bind hb
    obtain ⟨first, hfirst, hadvances, hnext⟩ := hx.sound a s' ha
    obtain ⟨rest, hrest, hadvances', hnext'⟩ := (hf a first s' hfirst hadvances hnext).sound b t hb
    exact ⟨first ++ rest, ⟨a, first, rest, hfirst, hrest, rfl⟩, hadvances.trans hadvances', hnext'⟩
  · rintro b bytes after ⟨a, first, rest, hfirst, hrest, rfl⟩ hle hunread
    rw [List.length_append] at hle
    rw [List.append_assoc] at hunread
    obtain ⟨s', ha, hadvances, hnext⟩ := hx.complete a first _ hfirst (by omega) hunread
    have hunread' : (input s').unread = rest ++ after :=
      List.append_cancel_left (hadvances.unread_eq.symm.trans hunread)
    obtain ⟨t, hb, hadvances', hnext'⟩ :=
      (hf a first s' hfirst hadvances hnext).complete b rest after hrest (by omega) hunread'
    exact ⟨t, (run_bind_ok ha).trans hb, hadvances.trans hadvances', hnext'⟩

/-- What has been read decides on the result, without more input. -/
theorem bind_check {p : α → List UInt8 → β → Prop} (hx : Consumes input most x s form next)
    (hf : ∀ a first s', form a first → (input s).Advances first (input s') → next a first s' →
      Consumes input (most - first.length) (f a) s' (fun b bytes => bytes = [] ∧ p a first b)
        fun b rest t => next₂ b (first ++ rest) t) :
    Consumes input most (x >>= f) s (fun b bytes => ∃ a, form a bytes ∧ p a bytes b) next₂ := by
  refine (hx.bind hf).congr fun b bytes => ?_
  constructor
  · rintro ⟨a, first, rest, hform, ⟨rfl, hp⟩, rfl⟩
    rw [List.append_nil]
    exact ⟨a, hform, hp⟩
  · rintro ⟨a, hform, hp⟩
    exact ⟨a, bytes, [], hform, ⟨rfl, hp⟩, (List.append_nil bytes).symm⟩

/-- The result is made from what has been read. -/
theorem bind_pure {k : α → β} (hx : Consumes input most x s form next) :
    Consumes input most (x >>= fun a => pure (k a)) s (fun b bytes => ∃ a, form a bytes ∧ b = k a)
      fun b bytes t => ∃ a, b = k a ∧ next a bytes t := by
  refine hx.bind_check (p := fun a _ b => b = k a) fun a first s' _ hadvances hnext => ?_
  refine of_ok (run_pure _ _) hadvances.live.refl (fun _ => Iff.rfl) ⟨a, rfl, ?_⟩
  rwa [List.append_nil]

end Consumes

namespace Replay

variable {b : ReplayBuffer} {most : Nat}

theorem bytes_consumes (h : b.Live) (count : Nat) :
    Consumes id most (Replay.bytes count) b (fun a bytes => a = bytes ∧ bytes.length = count) fun _ _ _ => True := by
  constructor
  · intro a b' ha
    by_cases hlt : b.unread.length < count
    · exact absurd ha (bytes_fails h hlt).ne_ok
    · have hlength : (b.unread.take count).length = count := by rw [List.length_take]; omega
      obtain ⟨t, hrun, hadvances⟩ := bytes_run h (List.take_append_drop count b.unread).symm
      rw [hlength, ha] at hrun
      cases hrun
      exact ⟨_, ⟨rfl, hlength⟩, hadvances, trivial⟩
  · rintro a bytes rest ⟨rfl, rfl⟩ _ hunread
    obtain ⟨b', hrun, hadvances⟩ := bytes_run h hunread
    exact ⟨b', hrun, hadvances, trivial⟩

theorem byte_consumes (h : b.Live) :
    Consumes id most byte b (fun a bytes => bytes = [a]) fun _ _ _ => True := by
  constructor
  · intro a b' ha
    cases hunread : b.unread with
    | nil => exact absurd ha (byte_fails h hunread).ne_ok
    | cons first rest =>
        obtain ⟨t, hrun, hadvances⟩ := byte_run h hunread
        rw [ha] at hrun
        cases hrun
        exact ⟨_, rfl, hadvances, trivial⟩
  · rintro a bytes rest rfl _ hunread
    obtain ⟨b', hrun, hadvances⟩ := byte_run h hunread
    exact ⟨b', hrun, hadvances, trivial⟩

theorem cstring_consumes (h : b.Live) :
    Consumes id most cstring b (fun name bytes => bytes = name ++ [0] ∧ 0 ∉ name) fun _ _ _ => True := by
  constructor
  · intro name b' ha
    by_cases hzero : 0 ∈ b.unread
    · obtain ⟨name', rest, hunread, hname⟩ := List.eq_append_cons_of_mem hzero
      obtain ⟨t, hrun, hadvances⟩ := cstring_run_of_prefix h hunread hname
      rw [ha] at hrun
      cases hrun
      exact ⟨_, ⟨rfl, hname⟩, hadvances, trivial⟩
    · exact absurd ha (cstring_fails h hzero).ne_ok
  · rintro name bytes rest ⟨rfl, hname⟩ _ hunread
    rw [List.append_assoc] at hunread
    obtain ⟨b', hrun, hadvances⟩ := cstring_run_of_prefix h hunread hname
    exact ⟨b', hrun, hadvances, trivial⟩

theorem natural_consumes (h : b.Live) (count : Nat) :
    Consumes id most (natural count) b (fun n bytes => bytes.length = count ∧ n = littleEndian bytes)
      fun _ _ _ => True := by
  refine ((bytes_consumes h count).bind_pure.congr fun n bytes => ?_).mono fun _ _ _ _ _ _ => trivial
  exact ⟨fun ⟨a, ⟨ha, hlength⟩, hn⟩ => ⟨hlength, ha ▸ hn⟩, fun ⟨hlength, hn⟩ => ⟨bytes, ⟨rfl, hlength⟩, hn⟩⟩

theorem int32_consumes (h : b.Live) :
    Consumes id most int32 b (fun n bytes => bytes = littleEndianBytes 4 n.toUInt32.toNat) fun _ _ _ => True := by
  refine ((natural_consumes h 4).bind_pure.congr fun n bytes => ?_).mono fun _ _ _ _ _ _ => trivial
  rw [← littleEndian_eq_toNat32_iff]
  constructor
  · rintro ⟨m, ⟨hlength, rfl⟩, rfl⟩
    exact ⟨hlength, (UInt32.toUInt32_toInt32 _).symm⟩
  · rintro ⟨hlength, hn⟩
    exact ⟨_, ⟨hlength, rfl⟩, by rw [hn, Int32.toInt32_toUInt32]⟩

theorem int64_consumes (h : b.Live) :
    Consumes id most int64 b (fun n bytes => bytes = littleEndianBytes 8 n.toUInt64.toNat) fun _ _ _ => True := by
  refine ((natural_consumes h 8).bind_pure.congr fun n bytes => ?_).mono fun _ _ _ _ _ _ => trivial
  rw [← littleEndian_eq_toNat_iff]
  constructor
  · rintro ⟨m, ⟨hlength, rfl⟩, rfl⟩
    exact ⟨hlength, (UInt64.toUInt64_toInt64 _).symm⟩
  · rintro ⟨hlength, hn⟩
    exact ⟨_, ⟨hlength, rfl⟩, by rw [hn, Int64.toInt64_toUInt64]⟩

end Replay

namespace Reader

/-- A reader that differs in its input alone. -/
def Moved (r r' : Reader) : Prop := ∃ input, r' = { r with input }

end Reader

namespace Read

open Reader

/-- What reading a type makes of a tag that is no terminator. One that is not known is refused, with the name of its
element. -/
def elementTag (tag : UInt8) : Read ElementType := do
  match ElementType.ofTag? tag with
  | some type =>
    modify fun r => { r with currentType := some type, currentName := none, state := .name }
    return type
  | none =>
    let leaf ← offendingName
    let path := (← get).elementPath leaf
    record (Log.Event.unknownType.entry [("path", path), ("tag", Hex.padded 2 tag.toNat)])
    throw (.unknownType tag path)

/-- What reading a type makes of a tag in the innermost container. -/
def innerTag (tag : UInt8) : Read ElementType := do
  match (← get).frames with
  | [] => refuse "read_bson_type"
  | frame :: frames =>
    if tag = 0 then
      modify fun r => { r with
        currentType := some .endOfDocument
        currentName := none
        state := if frame.kind = .array then .endOfArray else .endOfDocument }
      return .endOfDocument
    if frame.kind = .array then
      modify fun r => { r with frames := { frame with index := frame.index + 1 } :: frames }
    elementTag tag

theorem onInput_run (step : Replay α) (r : Reader) :
    (onInput step).run.run r = ((step.run.run r.input).1, { r with input := (step.run.run r.input).2 }) := rfl

theorem onInput_consumes {r : Reader} {most : Nat} {step : Replay α} {form : α → List UInt8 → Prop}
    {next : α → List UInt8 → ReplayBuffer → Prop} (h : Consumes id most step r.input form next) :
    Consumes Reader.input most (onInput step) r form fun _ _ r' => Moved r r' := by
  have hrun := onInput_run step r
  constructor
  · intro a r' ha
    rw [hrun] at ha
    obtain ⟨hresult, rfl⟩ := Prod.mk.inj ha
    obtain ⟨bytes, hform, hadvances, -⟩ := h.sound a _ (Prod.ext hresult rfl)
    exact ⟨bytes, hform, hadvances, _, rfl⟩
  · intro a bytes rest hform hle hunread
    obtain ⟨input, ha, hadvances, -⟩ := h.complete a bytes rest hform hle hunread
    rw [ha] at hrun
    exact ⟨_, hrun, hadvances, _, rfl⟩

end Read

end Aggregation.Wire
