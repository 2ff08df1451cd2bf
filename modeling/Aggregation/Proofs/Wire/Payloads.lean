import Aggregation.Proofs.Wire.Forms
import Aggregation.Proofs.Wire.Grammar

/-! Reading the values that are no containers. Each payload is read in the form that the grammar gives it, and reading
it leaves all of the reader but its input as it was. -/

namespace Aggregation.Wire

open Stepping Layout

namespace Reader

/-- Where a reader stands: its source is there, and it is in these containers and in this state. -/
structure At (r : Reader) (l : Limits) (frames : List Frame) (state : ReaderState) : Prop where
  live : r.input.Live
  limits_eq : r.limits = l
  frames_eq : r.frames = frames
  state_eq : r.state = state

theorem At.moved {r r' : Reader} {l : Limits} {frames : List Frame} {state : ReaderState} (h : r.At l frames state)
    (hmoved : Moved r r') (hlive : r'.input.Live) : r'.At l frames state := by
  obtain ⟨input, rfl⟩ := hmoved
  exact ⟨hlive, h.limits_eq, h.frames_eq, h.state_eq⟩

theorem Moved.trans {r r' r'' : Reader} (h : Moved r r') (h' : Moved r' r'') : Moved r r'' := by
  obtain ⟨input, rfl⟩ := h
  obtain ⟨input', rfl⟩ := h'
  exact ⟨input', rfl⟩

end Reader

namespace Read

open Reader

variable {r : Reader} {most : Nat}

/-- A payload is read in a form, and only the input moves. -/
abbrev Gives {α : Type} (payload : Read α) (r : Reader) (most : Nat) (form : α → List UInt8 → Prop) : Prop :=
  Consumes Reader.input most payload r form fun _ _ r' => Moved r r'

theorem offset_run (r : Reader) : offset.run.run r = (.ok r.position, r) := rfl

theorem length_gives (h : r.input.Live) (minimum : Int) :
    Gives (length minimum) r most fun n bytes =>
      bytes = littleEndianBytes 4 n.toUInt32.toNat ∧ minimum ≤ n.toInt ∧ n.toInt ≤ r.limits.maxDocumentSize := by
  refine .bind_ok (offset_run r) rfl ?_
  refine .congr (.bind_check (p := fun n _ m => m = n ∧ minimum ≤ n.toInt ∧ n.toInt ≤ r.limits.maxDocumentSize)
    (onInput_consumes (Replay.int32_consumes h)) fun n first r' _ hadvances hmoved => ?_) fun m bytes => ?_
  · obtain ⟨input, rfl⟩ := hmoved
    by_cases hlow : n.toInt < minimum
    · rw [if_pos hlow]
      exact .of_fails ((fails_throw _ _).bind _) fun m bytes hm => absurd hm.2.2.1 (by omega)
    · rw [if_neg hlow]
      refine .bind_ok (run_get _) rfl ?_
      by_cases hhigh : r.limits.maxDocumentSize < n.toInt
      · rw [if_pos hhigh]
        exact .of_fails ((fails_throw _ _).bind _) fun m bytes hm => absurd hm.2.2.2 (by omega)
      · rw [if_neg hhigh]
        refine .of_ok (run_pure _ _) hadvances.live.refl (fun m => ?_) ⟨input, rfl⟩
        exact ⟨fun hm => hm.1, fun hm => ⟨hm, by omega, by omega⟩⟩
  · exact ⟨fun ⟨n, hbytes, hm, hn⟩ => ⟨hm ▸ hbytes, hm ▸ hn⟩, fun ⟨hbytes, hm⟩ => ⟨m, hbytes, rfl, hm⟩⟩

theorem bytes_gives (h : r.input.Live) (count : Nat) :
    Gives (onInput (Replay.bytes count)) r most fun a bytes => a = bytes ∧ bytes.length = count :=
  onInput_consumes (Replay.bytes_consumes h count)

theorem cstring_gives (h : r.input.Live) :
    Gives (onInput Replay.cstring) r most fun name bytes => bytes = name ++ [0] ∧ 0 ∉ name :=
  onInput_consumes (Replay.cstring_consumes h)

/-- A string is its length, its text and a NUL, as far as lengths have four bytes. -/
theorem stringPayload_gives (h : r.input.Live) (hl : r.limits.maxDocumentSize < 2147483648) :
    Gives stringPayload r most fun s bytes =>
      bytes = text s ∧ r.limits.Bounds ((Utf8.encode s).length + 1) := by
  refine .bind_ok (offset_run r) rfl ?_
  refine .congr (.bind (g := fun size _ s rest => rest.length = size.toInt.toNat ∧ rest = Utf8.encode s ++ [0])
    (length_gives h 1) fun size first r' _ hadvances hmoved => ?_) fun s bytes => ?_
  · refine .congr (.bind_check (p := fun a _ s => a = Utf8.encode s ++ [0]) (bytes_gives hadvances.live _)
      fun a rest r'' _ hadvances' hmoved' => ?_) fun s bytes => ?_
    · by_cases hlast : a.getLast? = some 0
      · obtain ⟨content, rfl⟩ := List.getLast?_eq_some_iff.1 hlast
        rw [if_neg (not_not.2 hlast), List.dropLast_concat]
        cases hdecode : Utf8.decode? content with
        | none =>
            refine .of_fails (fails_throw _ _) fun s bytes hs => ?_
            rw [Utf8.decode?_eq_some_iff.2 (List.append_cancel_right hs.2).symm] at hdecode
            cases hdecode
        | some text =>
            refine .of_ok (run_pure _ _) hadvances'.live.refl (fun s => ?_) (hmoved.trans hmoved')
            rw [List.append_left_inj, ← Utf8.decode?_eq_some_iff.1 hdecode]
            exact ⟨fun hs => Utf8.encode_inj hs.symm, fun hs => hs ▸ rfl⟩
      · rw [if_pos hlast]
        refine .of_fails ((fails_throw _ _).bind _) fun s bytes hs => hlast ?_
        rw [hs.2, List.getLast?_concat]
    · constructor
      · rintro ⟨a, ⟨rfl, hlength⟩, ha⟩
        exact ⟨hlength, ha⟩
      · exact fun ⟨hlength, ha⟩ => ⟨bytes, ⟨rfl, hlength⟩, ha⟩
  · constructor
    · rintro ⟨size, first, rest, ⟨rfl, hone, hmax⟩, ⟨hlength, rfl⟩, rfl⟩
      rw [List.length_append, List.length_singleton] at hlength
      rw [toNat_toUInt32_of_nonneg (by omega), ← hlength, text, Limits.Bounds, List.append_assoc]
      exact ⟨rfl, by omega⟩
    · rintro ⟨rfl, hbounds⟩
      rw [Limits.Bounds] at hbounds
      have hsize : (Int32.ofNat ((Utf8.encode s).length + 1)).toInt = ((Utf8.encode s).length + 1 : Nat) :=
        Int32.toInt_ofNat_of_lt (by omega)
      refine ⟨Int32.ofNat ((Utf8.encode s).length + 1), _, _, ⟨rfl, by omega, by omega⟩, ⟨?_, rfl⟩, ?_⟩
      · rw [hsize, List.length_append, List.length_singleton]
        rfl
      · rw [toNat_toUInt32_of_nonneg (by omega), hsize, text, List.append_assoc]
        rfl

/-- Bytes up to a zero are decoded as text, and what follows gives the text back. -/
theorem text_consumes {k : List UInt8 → Read String} {next : String → Reader → Prop} (h : r.input.Live)
    (hfails : ∀ name r', Utf8.decode? name = none → Fails (k name) r')
    (hgives : ∀ name text r', Utf8.decode? name = some text → Moved r r' → r'.input.Live →
      ∃ r'', (k name).run.run r' = (.ok text, r'') ∧ r''.input = r'.input ∧ next text r'') :
    Consumes Reader.input most (onInput Replay.cstring >>= k) r
      (fun s bytes => bytes = cstring s ∧ '\x00' ∉ s.toList) fun s _ => next s := by
  refine .congr (.bind_check (p := fun name _ s => name = Utf8.encode s) (cstring_gives h)
    fun name first r' _ hadvances hmoved => ?_) fun s bytes => ?_
  · cases hdecode : Utf8.decode? name with
    | none =>
        refine .of_fails (hfails name r' hdecode) fun s bytes hs => ?_
        rw [Utf8.decode?_eq_some_iff.2 hs.2.symm] at hdecode
        cases hdecode
    | some text =>
        obtain ⟨r'', hrun, hinput, hnext⟩ := hgives name text r' hdecode hmoved hadvances.live
        refine .of_ok hrun (hinput ▸ hadvances.live.refl) (fun s => ?_) hnext
        rw [← Utf8.decode?_eq_some_iff.1 hdecode]
        exact ⟨fun hs => Utf8.encode_inj hs.symm, fun hs => hs ▸ rfl⟩
  · rw [← Utf8.zero_mem_encode]
    constructor
    · rintro ⟨name, ⟨hbytes, hzero⟩, rfl⟩
      exact ⟨hbytes, hzero⟩
    · exact fun hs => ⟨_, hs, rfl⟩

theorem regexPart_gives (h : r.input.Live) :
    Gives regexPart r most fun s bytes => bytes = cstring s ∧ '\x00' ∉ s.toList := by
  refine .bind_ok (offset_run r) rfl (text_consumes h (fun name r' hnone => ?_) fun name text r' hsome hmoved _ => ?_)
  · rw [hnone]
    exact fails_throw _ _
  · rw [hsome]
    exact ⟨r', run_pure _ _, rfl, hmoved⟩

theorem objectIdPayload_gives (h : r.input.Live) :
    Gives objectIdPayload r most fun id bytes => bytes = id.bytes := by
  refine .congr (.bind_check (p := fun a _ id => a = id.bytes) (bytes_gives h 12)
    fun a first r' ha hadvances hmoved => ?_) fun id bytes => ?_
  · have hlength : a.length = 12 := ha.1 ▸ ha.2
    rw [ObjectId.ofBytes?, dif_pos hlength]
    refine .of_ok (run_pure _ _) hadvances.live.refl (fun id => ?_) hmoved
    exact ⟨fun hid => by cases id; cases hid; rfl, fun hid => hid ▸ rfl⟩
  · exact ⟨fun ⟨a, ⟨ha, _⟩, hid⟩ => ha ▸ hid, fun hid => ⟨bytes, ⟨rfl, hid ▸ id.size_eq⟩, hid⟩⟩

theorem decimal128Payload_gives (h : r.input.Live) :
    Gives decimal128Payload r most fun d bytes => bytes = d.bytes := by
  refine .congr (.bind_check (p := fun a _ d => a = d.bytes) (bytes_gives h 16)
    fun a first r' ha hadvances hmoved => ?_) fun d bytes => ?_
  · have hlength : a.length = 16 := ha.1 ▸ ha.2
    rw [Decimal128.ofBytes?, dif_pos hlength]
    refine .of_ok (run_pure _ _) hadvances.live.refl (fun d => ?_) hmoved
    exact ⟨fun hd => by cases d; cases hd; rfl, fun hd => hd ▸ rfl⟩
  · exact ⟨fun ⟨a, ⟨ha, _⟩, hd⟩ => ha ▸ hd, fun hd => ⟨bytes, ⟨rfl, hd ▸ d.size_eq⟩, hd⟩⟩

theorem booleanPayload_gives (h : r.input.Live) :
    Gives booleanPayload r most fun b bytes => bytes = [if b then 1 else 0] := by
  refine .bind_ok (offset_run r) rfl ?_
  refine .congr (.bind_check (p := fun byte _ b => byte = if b then 1 else 0)
    (onInput_consumes (Replay.byte_consumes h)) fun byte first r' _ hadvances hmoved => ?_) fun b bytes => ?_
  · by_cases hzero : byte = 0
    · rw [if_pos hzero]
      refine .of_ok (run_pure _ _) hadvances.live.refl (fun b => ?_) hmoved
      cases b <;> simp [hzero]
    · rw [if_neg hzero]
      by_cases hone : byte = 1
      · rw [if_pos hone]
        refine .of_ok (run_pure _ _) hadvances.live.refl (fun b => ?_) hmoved
        cases b <;> simp [hone]
      · rw [if_neg hone]
        refine .of_fails (fails_throw _ _) fun b bytes hb => ?_
        cases b
        · exact hzero hb.2
        · exact hone hb.2
  · exact ⟨fun ⟨_, hbytes, hb⟩ => hb ▸ hbytes, fun hbytes => ⟨_, hbytes, rfl⟩⟩

/-- What follows the subtype of a legacy binary: a second length that agrees with the first, and the bytes. -/
theorem legacyBinary_gives (h : r.input.Live) (outer : Int32) (start : Nat) :
    Gives (do
        let inner ← onInput Replay.int32
        if inner.toInt < 0 ∨ inner.toInt ≠ outer.toInt - 4 then
          throw (.malformedValue start (.legacyLength inner.toInt outer.toInt))
        return ((2 : UInt8), ← onInput (Replay.bytes inner.toInt.toNat))) r most
      fun v bytes => v.1 = 2 ∧ bytes = binaryContent 2 v.2 ∧ outer.toInt = bytes.length := by
  refine .congr (.bind (g := fun inner _ v rest =>
    v.1 = 2 ∧ rest = v.2 ∧ inner.toInt = v.2.length ∧ outer.toInt = v.2.length + 4)
    (onInput_consumes (Replay.int32_consumes h)) fun inner first r' _ hadvances hmoved => ?_) fun v bytes => ?_
  · by_cases hinner : inner.toInt < 0 ∨ inner.toInt ≠ outer.toInt - 4
    · rw [if_pos hinner]
      exact .of_fails ((fails_throw _ _).bind _) fun v bytes hv => by omega
    · rw [if_neg hinner]
      refine ((bytes_gives hadvances.live _).bind_pure.congr fun v bytes => ?_).mono ?_
      · constructor
        · rintro ⟨a, ⟨rfl, hlength⟩, rfl⟩
          exact ⟨rfl, rfl, by dsimp only; omega, by dsimp only; omega⟩
        · rintro ⟨htwo, rfl, hlength, -⟩
          exact ⟨_, ⟨rfl, by omega⟩, Prod.ext htwo rfl⟩
      · rintro v bytes r'' - - ⟨a, -, hmoved'⟩
        exact hmoved.trans hmoved'
  · rw [binaryContent, if_pos rfl]
    constructor
    · rintro ⟨inner, first, rest, rfl, ⟨htwo, rfl, hinner, houter⟩, rfl⟩
      rw [toNat_toUInt32_of_nonneg (by omega), hinner, List.length_append, length_littleEndianBytes]
      exact ⟨htwo, rfl, by omega⟩
    · rintro ⟨htwo, rfl, houter⟩
      rw [List.length_append, length_littleEndianBytes] at houter
      have hmost := outer.toInt_lt
      have hinner : (Int32.ofNat v.2.length).toInt = v.2.length := Int32.toInt_ofNat_of_lt (by omega)
      refine ⟨Int32.ofNat v.2.length, _, _, rfl, ⟨htwo, rfl, hinner, by omega⟩, ?_⟩
      rw [toNat_toUInt32_of_nonneg (by omega), hinner]
      rfl

theorem binaryPayload_gives (h : r.input.Live) (hl : r.limits.maxDocumentSize < 2147483648) :
    Gives binaryPayload r most fun v bytes =>
      bytes = binary v.1 v.2 ∧ r.limits.Bounds (binaryContent v.1 v.2).length := by
  refine .bind_ok (offset_run r) rfl ?_
  refine .congr (.bind (g := fun outer _ v rest =>
    outer.toInt = ((binaryContent v.1 v.2).length : Int) ∧ rest = v.1 :: binaryContent v.1 v.2)
    (length_gives h 0) fun outer first r' houter hadvances hmoved => ?_) fun v bytes => ?_
  · refine .congr (.bind (g := fun subtype _ v rest => v.1 = subtype ∧
      outer.toInt = (binaryContent v.1 v.2).length ∧ rest = binaryContent v.1 v.2)
      (onInput_consumes (Replay.byte_consumes hadvances.live)) fun subtype tag r'' _ hadvances' hmoved' => ?_)
      fun v bytes => ?_
    · have hmoves := hmoved.trans hmoved'
      have hnonneg := houter.2.1
      by_cases hlegacy : subtype = 2
      · rw [if_pos hlegacy, hlegacy]
        refine ((legacyBinary_gives hadvances'.live outer _).congr fun v bytes => ?_).mono ?_
        · constructor
          · rintro ⟨htwo, rfl, houter⟩
            rw [htwo]
            exact ⟨rfl, houter, rfl⟩
          · rintro ⟨htwo, houter, rfl⟩
            rw [htwo] at houter ⊢
            exact ⟨rfl, rfl, houter⟩
        · exact fun _ _ _ _ _ hmoved'' => hmoves.trans hmoved''
      · rw [if_neg hlegacy]
        refine ((bytes_gives hadvances'.live _).bind_pure.congr fun v bytes => ?_).mono ?_
        · constructor
          · rintro ⟨a, ⟨rfl, hlength⟩, rfl⟩
            rw [binaryContent, if_neg hlegacy]
            exact ⟨rfl, by dsimp only; omega, rfl⟩
          · rintro ⟨rfl, hlength, rfl⟩
            rw [binaryContent, if_neg hlegacy] at hlength ⊢
            exact ⟨_, ⟨rfl, by omega⟩, rfl⟩
        · rintro v bytes r'' - - ⟨a, -, hmoved''⟩
          exact hmoves.trans hmoved''
    · constructor
      · rintro ⟨subtype, tag, rest, rfl, ⟨rfl, hlength, rfl⟩, rfl⟩
        exact ⟨hlength, rfl⟩
      · rintro ⟨hlength, rfl⟩
        exact ⟨v.1, [v.1], _, rfl, ⟨rfl, hlength, rfl⟩, rfl⟩
  · rw [Limits.Bounds]
    constructor
    · rintro ⟨outer, first, rest, ⟨rfl, hnonneg, hmax⟩, ⟨hlength, rfl⟩, rfl⟩
      rw [toNat_toUInt32_of_nonneg hnonneg, hlength, binary, List.append_assoc]
      exact ⟨rfl, by omega⟩
    · rintro ⟨rfl, hmax⟩
      have houter : (Int32.ofNat (binaryContent v.1 v.2).length).toInt = (binaryContent v.1 v.2).length :=
        Int32.toInt_ofNat_of_lt (by omega)
      refine ⟨Int32.ofNat (binaryContent v.1 v.2).length, _, _, ⟨rfl, by omega, by omega⟩, ⟨houter, rfl⟩, ?_⟩
      rw [toNat_toUInt32_of_nonneg (by omega), houter, binary, List.append_assoc]
      rfl

theorem double_gives (h : r.input.Live) :
    Gives (do return ⟨UInt64.ofNat (← onInput (Replay.natural 8))⟩) r most fun (x : Binary64) bytes =>
      bytes = littleEndianBytes 8 x.bits.toNat := by
  refine ((onInput_consumes (Replay.natural_consumes h 8)).bind_pure.congr fun x bytes => ?_).mono ?_
  · rw [← littleEndian_eq_toNat_iff]
    constructor
    · rintro ⟨n, ⟨hlength, rfl⟩, rfl⟩
      exact ⟨hlength, rfl⟩
    · rintro ⟨hlength, hbits⟩
      exact ⟨_, ⟨hlength, rfl⟩, by rw [hbits]⟩
  · rintro x bytes r' - - ⟨a, -, hmoved⟩
    exact hmoved

theorem timestamp_gives (h : r.input.Live) :
    Gives (do
        let word ← onInput (Replay.natural 8)
        return (UInt32.ofNat (word / UInt32.size), UInt32.ofNat word)) r most
      fun v bytes => bytes = littleEndianBytes 8 (v.1.toNat * UInt32.size + v.2.toNat) := by
  refine ((onInput_consumes (Replay.natural_consumes h 8)).bind_pure.congr fun v bytes => ?_).mono ?_
  · obtain ⟨time, increment⟩ := v
    have htime := time.toNat_lt
    have hincrement := increment.toNat_lt
    have hword : time.toNat * UInt32.size + increment.toNat < 256 ^ 8 := by
      rw [UInt32.size]
      omega
    constructor
    · rintro ⟨n, ⟨hlength, rfl⟩, hv⟩
      obtain ⟨rfl, rfl⟩ := Prod.mk.inj hv
      have hlt := littleEndian_lt bytes
      rw [hlength] at hlt
      rw [eq_littleEndianBytes_iff hlength hword, UInt32.toNat_ofNat', UInt32.toNat_ofNat', UInt32.size]
      omega
    · rintro rfl
      have hlength := length_littleEndianBytes 8 (time.toNat * UInt32.size + increment.toNat)
      refine ⟨_, ⟨hlength, rfl⟩, ?_⟩
      have hhigh : (time.toNat * UInt32.size + increment.toNat) / UInt32.size = time.toNat := by
        rw [UInt32.size]
        omega
      have hlow : UInt32.ofNat (time.toNat * UInt32.size + increment.toNat) = increment := by
        apply UInt32.toNat_inj.1
        rw [UInt32.toNat_ofNat', UInt32.size]
        omega
      rw [(eq_littleEndianBytes_iff hlength hword).1 rfl, hhigh, hlow, UInt32.ofNat_toNat]
  · rintro v bytes r' - - ⟨a, -, hmoved⟩
    exact hmoved

theorem regularExpression_gives (h : r.input.Live) :
    Gives (do
        let pattern ← regexPart
        return (pattern, ← regexPart)) r most
      fun v bytes => bytes = cstring v.1 ++ cstring v.2 ∧ '\x00' ∉ v.1.toList ∧ '\x00' ∉ v.2.toList := by
  refine .congr (.bind (g := fun pattern _ v rest => v.1 = pattern ∧ rest = cstring v.2 ∧ '\x00' ∉ v.2.toList)
    (regexPart_gives h) fun pattern first r' _ hadvances hmoved => ?_) fun v bytes => ?_
  · refine ((regexPart_gives hadvances.live).bind_pure.congr fun v bytes => ?_).mono ?_
    · constructor
      · rintro ⟨options, hoptions, rfl⟩
        exact ⟨rfl, hoptions⟩
      · rintro ⟨rfl, hoptions⟩
        exact ⟨v.2, hoptions, rfl⟩
    · rintro v bytes r'' - - ⟨a, -, hmoved'⟩
      exact hmoved.trans hmoved'
  · constructor
    · rintro ⟨pattern, first, rest, ⟨rfl, hpattern⟩, ⟨rfl, rfl, hoptions⟩, rfl⟩
      exact ⟨rfl, hpattern, hoptions⟩
    · rintro ⟨rfl, hpattern, hoptions⟩
      exact ⟨v.1, _, _, ⟨rfl, hpattern⟩, ⟨rfl, rfl, hoptions⟩, rfl⟩

theorem dbPointer_gives (h : r.input.Live) (hl : r.limits.maxDocumentSize < 2147483648) :
    Gives (do
        let collection ← stringPayload
        return (collection, ← objectIdPayload)) r most
      fun v bytes => bytes = text v.1 ++ v.2.bytes ∧ r.limits.Bounds ((Utf8.encode v.1).length + 1) := by
  refine .congr (.bind (g := fun collection _ v rest => v.1 = collection ∧ rest = v.2.bytes)
    (stringPayload_gives h hl) fun collection first r' _ hadvances hmoved => ?_) fun v bytes => ?_
  · refine ((objectIdPayload_gives hadvances.live).bind_pure.congr fun v bytes => ?_).mono ?_
    · constructor
      · rintro ⟨id, hid, rfl⟩
        exact ⟨rfl, hid⟩
      · rintro ⟨rfl, hid⟩
        exact ⟨v.2, hid, rfl⟩
    · rintro v bytes r'' - - ⟨a, -, hmoved'⟩
      exact hmoved.trans hmoved'
  · constructor
    · rintro ⟨collection, first, rest, ⟨rfl, hbounds⟩, ⟨rfl, rfl⟩, rfl⟩
      exact ⟨rfl, hbounds⟩
    · rintro ⟨rfl, hbounds⟩
      exact ⟨v.1, _, _, ⟨rfl, hbounds⟩, ⟨rfl, rfl⟩, rfl⟩

theorem ensureOpen_run {l : Limits} {frames : List Frame} {state : ReaderState} (h : r.At l frames state)
    (hstate : state ≠ .closed) : ensureOpen.run.run r = (.ok (), r) := by
  have hopen : r.isClosed = false := by
    rw [isClosed, h.live.isReleased_eq, h.state_eq, decide_eq_false hstate]
    rfl
  simp only [ensureOpen, run_bind, run_get, hopen]
  rfl

theorem beginValue_run {l : Limits} {frames : List Frame} (h : r.At l frames .value) {type : ElementType}
    (htype : r.currentType = some type) (operation : String) :
    (beginValue operation type).run.run r = (.ok (), r) := by
  have hopen := ensureOpen_run h (by decide)
  simp only [beginValue, expectType, run_bind, hopen, run_get, h.state_eq, htype, ne_eq, not_true_eq_false, reduceIte,
    run_pure]

theorem endValue_run {l : Limits} {frame : Frame} {frames : List Frame} {state : ReaderState}
    (h : r.At l (frame :: frames) state) :
    ∃ r', endValue.run.run r = (.ok (), r') ∧ r'.At l (frame :: frames) .type ∧ r'.input = r.input := by
  refine ⟨{ r with state := .type }, ?_, ⟨h.live, h.limits_eq, h.frames_eq, rfl⟩, rfl⟩
  rw [endValue, run_modify, h.frames_eq]
  rfl

theorem empty_gives (h : r.input.Live) : Gives (pure ()) r most fun _ bytes => bytes = [] :=
  (Consumes.of_ok (p := fun _ => True) (run_pure () r) h.refl (fun _ => ⟨fun _ => rfl, fun _ => trivial⟩)
    ⟨r.input, rfl⟩).congr fun _ _ => and_iff_left trivial

/-- What has been read is a value of a type. `k` is its constructor, the only one of the type. -/
theorem value_consumes {α : Type} {x : Read α} {k : α → Value} {l : Limits} {type : ElementType} {opened : Nat}
    {form : α → List UInt8 → Prop} {next : Reader → Prop} (hx : Consumes Reader.input most x r form fun _ _ => next)
    (hk : ∀ v : Value, v.elementType = type → ∃ a, v = k a)
    (hform : ∀ a bytes, form a bytes ↔ (k a).elementType = type ∧ IsForm l opened (k a) bytes) :
    Consumes Reader.input most (x >>= fun a => pure (k a)) r
      (fun v bytes => v.elementType = type ∧ IsForm l opened v bytes) fun _ _ => next := by
  refine (hx.bind_pure.congr fun v bytes => ?_).mono ?_
  · constructor
    · rintro ⟨a, ha, rfl⟩
      exact (hform a bytes).1 ha
    · intro hv
      obtain ⟨a, rfl⟩ := hk v hv.1
      exact ⟨a, (hform a bytes).2 hv, rfl⟩
  · rintro v bytes r' - - ⟨a, -, hat⟩
    exact hat

/-- Reading what a value that is no container is made from. -/
theorem readScalar_gives {α : Type} {l : Limits} {frame : Frame} {frames : List Frame} {type : ElementType}
    {payload : Read α} {form : α → List UInt8 → Prop} (h : r.At l (frame :: frames) .value)
    (htype : r.currentType = some type) (operation : String) (hp : Gives payload r most form) :
    Consumes Reader.input most (readScalar operation type payload) r form
      fun _ _ r' => r'.At l (frame :: frames) .type := by
  refine .bind_ok (beginValue_run h htype operation) rfl ?_
  refine .congr (.bind_check (p := fun a _ b => b = a) hp fun a first r' _ hadvances hmoved => ?_) fun b bytes => ?_
  · obtain ⟨r'', hrun, hat, hinput⟩ := endValue_run (h.moved hmoved hadvances.live)
    refine .of_ok ((run_bind_ok hrun).trans (run_pure _ _)) ?_ (fun _ => Iff.rfl) hat
    rw [hinput]
    exact hadvances.live.refl
  · exact ⟨fun ⟨a, ha, hb⟩ => hb ▸ ha, fun hb => ⟨b, hb, rfl⟩⟩

/-- Reading a value that is no container. -/
theorem readScalar_consumes {α : Type} {k : α → Value} {l : Limits} {frame : Frame} {frames : List Frame}
    {type : ElementType} {opened : Nat} {payload : Read α} {form : α → List UInt8 → Prop}
    (h : r.At l (frame :: frames) .value) (htype : r.currentType = some type) (operation : String)
    (hp : Gives payload r most form) (hk : ∀ v : Value, v.elementType = type → ∃ a, v = k a)
    (hform : ∀ a bytes, form a bytes ↔ (k a).elementType = type ∧ IsForm l opened (k a) bytes) :
    Consumes Reader.input most (readScalar operation type payload >>= fun a => pure (k a)) r
      (fun v bytes => v.elementType = type ∧ IsForm l opened v bytes)
      fun _ _ r' => r'.At l (frame :: frames) .type :=
  value_consumes (readScalar_gives h htype operation hp) hk hform

end Read

end Aggregation.Wire
