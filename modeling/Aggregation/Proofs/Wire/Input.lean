import Aggregation.Proofs.Wire.Bytes
import Aggregation.Proofs.Wire.Steps
import Aggregation.Wire.ReplayBuffer

/-! What a reader still has before it. Kept bytes behind the cursor and bytes that the source has not yet handed out
are one list, and no step depends on where the one ends and the other begins. -/

namespace Aggregation.Wire

open Stepping ReplayBuffer

namespace Source

/-- The bytes of a delivery. -/
def deliveryBytes : Delivery → List UInt8
  | .chunk first rest => first :: rest
  | .interrupted => []

/-- The bytes that deliveries bring. -/
def brought (deliveries : List Delivery) : List UInt8 := deliveries.flatMap deliveryBytes

/-- The bytes that a source still hands out. -/
def content (s : Source) : List UInt8 := brought s.deliveries

theorem length_content (s : Source) : s.content.length = s.remaining := by
  obtain ⟨deliveries, ending⟩ := s
  rw [content, remaining]
  induction deliveries with
  | nil => rfl
  | cons delivery later ih =>
      rw [brought, List.flatMap_cons, List.length_append, List.foldr_cons, ← ih, brought]
      cases delivery <;> rfl

end Source

namespace ReplayBuffer

open Source

/-- The bytes that have not been read, kept or not. -/
def unread (b : ReplayBuffer) : List UInt8 :=
  (b.buffer.toList ++ (b.source.map Source.content).getD []).drop b.cursor

/-- A buffer over a source that ends and does not fail. -/
structure Live (b : ReplayBuffer) : Prop where
  source_eq : ∃ source, b.source = some source ∧ source.ending = .ends
  cursor_le : b.cursor ≤ b.buffer.size

/-- From one buffer to another, bytes have been read. -/
structure Advances (b : ReplayBuffer) (bytes : List UInt8) (b' : ReplayBuffer) : Prop where
  live : b'.Live
  unread_eq : b.unread = bytes ++ b'.unread
  position_eq : b'.position = b.position + bytes.length

theorem Live.refl {b : ReplayBuffer} (h : b.Live) : b.Advances [] b := ⟨h, rfl, rfl⟩

theorem Advances.trans {b b' b'' : ReplayBuffer} {x y : List UInt8} (h : b.Advances x b') (h' : b'.Advances y b'') :
    b.Advances (x ++ y) b'' := by
  refine ⟨h'.live, ?_, ?_⟩
  · rw [h.unread_eq, h'.unread_eq, List.append_assoc]
  · rw [h'.position_eq, h.position_eq, List.length_append, Nat.add_assoc]

theorem Live.isReleased_eq {b : ReplayBuffer} (h : b.Live) : b.isReleased = false := by
  obtain ⟨source, hsource, _⟩ := h.source_eq
  rw [isReleased, hsource]
  rfl

theorem Live.length_unread {b : ReplayBuffer} (h : b.Live) : b.unread.length = b.supply := by
  obtain ⟨source, hsource, _⟩ := h.source_eq
  have hcursor := h.cursor_le
  simp only [unread, supply, available, hsource, Option.map_some, Option.getD_some, List.length_drop,
    List.length_append, length_content, Array.length_toList]
  omega

theorem toList_chunk (buffer : Array UInt8) (first : UInt8) (rest : List UInt8) :
    (buffer.push first ++ rest).toList = buffer.toList ++ first :: rest := by simp

theorem size_chunk (buffer : Array UInt8) (first : UInt8) (rest : List UInt8) :
    (buffer.push first ++ rest).size = buffer.size + (rest.length + 1) := by
  rw [← Array.length_toList, toList_chunk, List.length_append, Array.length_toList, List.length_cons]

theorem receive_of_le {target : Nat} {buffer : Array UInt8} (h : target ≤ buffer.size) (deliveries : List Delivery) :
    receive target deliveries buffer = (buffer, deliveries) := by
  cases deliveries with
  | nil => rfl
  | cons delivery later => cases delivery <;> exact if_pos h

theorem receive_interrupted {target : Nat} {buffer : Array UInt8} (h : ¬target ≤ buffer.size)
    (later : List Delivery) : receive target (.interrupted :: later) buffer = receive target later buffer :=
  if_neg h

theorem receive_chunk {target : Nat} {buffer : Array UInt8} (h : ¬target ≤ buffer.size) (first : UInt8)
    (rest : List UInt8) (later : List Delivery) :
    receive target (.chunk first rest :: later) buffer = receive target later (buffer.push first ++ rest) :=
  if_neg h

/-- Taking deliveries moves bytes from the source into the buffer, up to the target if there are as many. -/
theorem receive_spec (target : Nat) (deliveries : List Delivery) (buffer : Array UInt8) :
    let r := receive target deliveries buffer
    r.1.toList ++ brought r.2 = buffer.toList ++ brought deliveries ∧ buffer.size ≤ r.1.size ∧
      (target ≤ r.1.size ∨ r.2 = []) := by
  induction deliveries generalizing buffer with
  | nil => exact ⟨rfl, Nat.le_refl _, .inr rfl⟩
  | cons delivery later ih =>
      by_cases htarget : target ≤ buffer.size
      · rw [receive_of_le htarget]
        exact ⟨rfl, Nat.le_refl _, .inl htarget⟩
      · cases delivery with
        | interrupted =>
            rw [receive_interrupted htarget]
            exact ih buffer
        | chunk first rest =>
            rw [receive_chunk htarget]
            obtain ⟨hall, hsize, hend⟩ := ih (buffer.push first ++ rest)
            refine ⟨?_, ?_, hend⟩
            · rw [hall, toList_chunk]
              simp [brought, deliveryBytes]
            · rw [size_chunk] at hsize
              omega

/-- Taking deliveries up to a NUL moves bytes from the source into the buffer. -/
theorem receiveNul_spec (deliveries : List Delivery) (buffer : Array UInt8) :
    let r := receiveNul deliveries buffer
    r.1.toList ++ brought r.2 = buffer.toList ++ brought deliveries ∧ buffer.size ≤ r.1.size ∧
      (0 ∈ r.1.toList.drop buffer.size ∨ r.2 = []) := by
  induction deliveries generalizing buffer with
  | nil => exact ⟨rfl, Nat.le_refl _, .inr rfl⟩
  | cons delivery later ih =>
      cases delivery with
      | interrupted => exact ih buffer
      | chunk first rest =>
          have hsize := size_chunk buffer first rest
          rw [receiveNul]
          split_ifs with hnul
          · refine ⟨by simp [brought, deliveryBytes], Nat.le_of_lt (by rw [hsize]; omega), .inl ?_⟩
            rw [toList_chunk, ← Array.length_toList, List.drop_left]
            simpa [eq_comm] using hnul
          · obtain ⟨hall, hle, hend⟩ := ih (buffer.push first ++ rest)
            refine ⟨?_, by omega, hend.imp_left fun hzero => ?_⟩
            · rw [hall, toList_chunk]
              simp [brought, deliveryBytes]
            · exact List.drop_subset_drop_left _ (by omega) hzero

/-- The kept bytes that have not been read. -/
def kept (b : ReplayBuffer) : List UInt8 := b.buffer.toList.drop b.cursor

theorem Live.length_kept {b : ReplayBuffer} : b.kept.length = b.available := by
  rw [kept, List.length_drop, Array.length_toList, available]

theorem Live.unread_eq {b : ReplayBuffer} (h : b.Live) {source : Source} (hsource : b.source = some source) :
    b.unread = b.kept ++ source.content := by
  rw [unread, hsource, kept, List.drop_append_of_le_length (by simpa using h.cursor_le)]
  rfl

/-- Moving bytes from the source into the buffer reads nothing. -/
theorem Live.advances_received {b : ReplayBuffer} (h : b.Live) {source : Source} (hsource : b.source = some source)
    {buffer : Array UInt8} {deliveries : List Delivery}
    (hall : buffer.toList ++ brought deliveries = b.buffer.toList ++ brought source.deliveries)
    (hsize : b.buffer.size ≤ buffer.size) :
    b.Advances [] { b with buffer, source := some { source with deliveries } } := by
  obtain ⟨source', hsource', hending⟩ := h.source_eq
  obtain rfl : source = source' := Option.some.inj (hsource.symm.trans hsource')
  refine ⟨⟨⟨_, rfl, hending⟩, Nat.le_trans h.cursor_le hsize⟩, ?_, rfl⟩
  simp only [unread, hsource, content, Option.map_some, Option.getD_some, hall, List.nil_append]

/-- Moving the cursor over kept bytes reads them. -/
theorem Live.advances_kept {b : ReplayBuffer} (h : b.Live) {bytes rest : List UInt8} (hkept : b.kept = bytes ++ rest) :
    b.Advances bytes { b with cursor := b.cursor + bytes.length } := by
  obtain ⟨source, hsource, hending⟩ := h.source_eq
  have hlength : bytes.length ≤ b.available := by
    rw [← Live.length_kept, hkept, List.length_append]
    omega
  have hcursor := h.cursor_le
  have hlive : Live { b with cursor := b.cursor + bytes.length } := by
    refine ⟨⟨source, hsource, hending⟩, ?_⟩
    rw [available] at hlength
    show b.cursor + bytes.length ≤ b.buffer.size
    omega
  refine ⟨hlive, ?_, (Nat.add_assoc _ _ _).symm⟩
  rw [h.unread_eq hsource, hlive.unread_eq hsource, hkept, kept, ← List.drop_drop]
  rw [kept] at hkept
  rw [hkept, List.drop_left, List.append_assoc]

theorem getElem?_of_drop_eq_cons {buffer : Array UInt8} {i : Nat} {b : UInt8} {rest : List UInt8}
    (h : buffer.toList.drop i = b :: rest) : buffer[i]? = some b ∧ buffer.toList.drop (i + 1) = rest := by
  constructor
  · rw [← Array.getElem?_toList, ← Nat.add_zero i, ← List.getElem?_drop, h]
    rfl
  · rw [← List.drop_drop, h]
    rfl

theorem nulIndex?_of_drop {buffer : Array UInt8} {name rest : List UInt8} {count i : Nat}
    (h : buffer.toList.drop i = name ++ 0 :: rest) (hname : 0 ∉ name) (hcount : name.length < count) :
    nulIndex? buffer count i = some (i + name.length) := by
  induction name generalizing count i with
  | nil =>
      obtain ⟨count, rfl⟩ := Nat.exists_eq_add_one.2 hcount
      rw [nulIndex?, if_pos (getElem?_of_drop_eq_cons h).1]
      rfl
  | cons b name ih =>
      obtain ⟨count, rfl⟩ := Nat.exists_eq_add_one.2 (Nat.lt_of_le_of_lt (Nat.zero_le _) hcount)
      obtain ⟨hb, hdrop⟩ := getElem?_of_drop_eq_cons h
      rw [List.mem_cons, not_or] at hname
      have hne : buffer[i]? ≠ some 0 := by
        rw [hb]
        exact fun heq => hname.1 (Option.some.inj heq).symm
      rw [nulIndex?, if_neg hne, ih hdrop hname.2 (Nat.lt_of_succ_lt_succ hcount), List.length_cons, Nat.add_assoc,
        Nat.add_comm 1]

theorem nulIndex?_eq_none {buffer : Array UInt8} {count i : Nat} (h : 0 ∉ buffer.toList.drop i) :
    nulIndex? buffer count i = none := by
  induction count generalizing i with
  | zero => rfl
  | succ count ih =>
      have hne : buffer[i]? ≠ some 0 := by
        rw [← Array.getElem?_toList, ← Nat.add_zero i, ← List.getElem?_drop]
        exact fun heq => h (List.mem_of_getElem? heq)
      rw [nulIndex?, if_neg hne]
      exact ih fun hmem => h (List.drop_subset_drop_left _ (Nat.le_succ i) hmem)

theorem oldest_le (b : ReplayBuffer) : b.oldest ≤ b.position := by
  suffices h : ∀ (pins : List Pin) (least : Nat), pins.foldl (fun least pin => min least pin.position) least ≤ least
    from h b.pins b.position
  intro pins
  induction pins with
  | nil => exact fun least => Nat.le_refl least
  | cons pin pins ih => exact fun least => Nat.le_trans (ih _) (Nat.min_le_left _ _)

/-- Forgetting bytes that nothing can return to reads nothing. -/
theorem Live.advances_compact {b : ReplayBuffer} (h : b.Live) : b.Advances [] b.compact := by
  obtain ⟨source, hsource, hending⟩ := h.source_eq
  have hcursor := h.cursor_le
  have hdiscard : b.oldest - b.base ≤ b.cursor := by
    have hle := oldest_le b
    rw [position] at hle
    omega
  have hsize : (b.buffer.extract (b.oldest - b.base) b.buffer.size).size = b.buffer.size - (b.oldest - b.base) := by
    rw [Array.size_extract, Nat.min_self]
  have hlive : b.compact.Live := by
    refine ⟨⟨source, hsource, hending⟩, ?_⟩
    show b.cursor - (b.oldest - b.base) ≤ (b.buffer.extract (b.oldest - b.base) b.buffer.size).size
    omega
  refine ⟨hlive, ?_, ?_⟩
  · have hkept : b.compact.kept = b.kept := by
      rw [kept, kept, compact]
      simp only [Array.toList_extract, List.extract_eq_take_drop]
      rw [← Array.length_toList, ← List.length_drop, List.take_length, List.drop_drop]
      congr 1
      omega
    rw [h.unread_eq hsource, hlive.unread_eq hsource, hkept, List.nil_append]
  · show b.base + (b.oldest - b.base) + (b.cursor - (b.oldest - b.base)) = b.base + b.cursor + 0
    omega

end ReplayBuffer

namespace Replay

/-- The bytes up to a NUL among the kept ones. -/
def keptCstring : Replay (List UInt8) := do
  let b ← get
  match nulIndex? b.buffer b.available b.cursor with
  | some i =>
    set { b with cursor := i + 1 }
    return (b.buffer.extract b.cursor i).toList
  | none =>
    if let some source := b.source then checkEnding source.ending
    outOfBytes

/-- A NUL is looked for among the kept bytes, and then among those that the source still has. -/
theorem cstring_run {b : ReplayBuffer} {source : Source} (h : b.source = some source) :
    cstring.run.run b =
      if (nulIndex? b.buffer b.available b.cursor).isNone then
        let r := receiveNul source.deliveries b.buffer
        keptCstring.run.run { b with buffer := r.1, source := some { source with deliveries := r.2 } }
      else keptCstring.run.run b := by
  simp only [cstring, run_bind, run_get, h]
  split_ifs
  · rfl
  · rfl

/-- Asking for bytes reads nothing, and keeps as many if there are as many. -/
theorem fill_run {b : ReplayBuffer} (h : b.Live) (wanted : Nat) :
    ∃ b', (fill wanted).run.run b = (.ok (decide (wanted ≤ b.unread.length)), b') ∧ b.Advances [] b' ∧
      (wanted ≤ b.unread.length → wanted ≤ b'.kept.length) := by
  obtain ⟨source, hsource, hending⟩ := h.source_eq
  have hreceive := receive_spec (b.cursor + wanted) source.deliveries b.buffer
  rcases hr : receive (b.cursor + wanted) source.deliveries b.buffer with ⟨buffer, deliveries⟩
  rw [hr] at hreceive
  obtain ⟨hall, hsize, hend⟩ := hreceive
  have hadvances := h.advances_received hsource hall hsize
  have hunread := congrArg List.length (hadvances.unread_eq.trans (hadvances.live.unread_eq rfl))
  rw [List.length_append, Live.length_kept, available, Source.content] at hunread
  have hcursor := hadvances.live.cursor_le
  dsimp only at hunread hend hcursor
  refine ⟨_, ?_, hadvances, fun hle => ?_⟩
  · by_cases htarget : b.cursor + wanted ≤ buffer.size
    · have hle : wanted ≤ b.unread.length := by omega
      simp only [fill, run_bind, run_get, hsource, hr, run_set, if_pos htarget, run_pure, decide_eq_true hle]
    · have hlt : ¬wanted ≤ b.unread.length := by
        rw [hunread, hend.resolve_left htarget, Source.brought, List.flatMap_nil, List.length_nil]
        omega
      simp only [fill, run_bind, run_get, hsource, hr, run_set, if_neg htarget, hending, checkEnding, run_pure,
        decide_eq_false hlt]
  · rw [Live.length_kept, available]
    rcases hend with htarget | hnone
    · dsimp only
      omega
    · rwa [hunread, hnone] at hle

/-- Asking for bytes that are there keeps them. -/
theorem fill_run_of_prefix {b : ReplayBuffer} (h : b.Live) {bytes rest : List UInt8}
    (hunread : b.unread = bytes ++ rest) :
    ∃ b' rest', (fill bytes.length).run.run b = (.ok true, b') ∧ b.Advances [] b' ∧ b'.kept = bytes ++ rest' := by
  obtain ⟨b', hrun, hadvances, hkept⟩ := fill_run h bytes.length
  have hle : bytes.length ≤ b.unread.length := by
    rw [hunread, List.length_append]
    omega
  obtain ⟨source, hsource, _⟩ := hadvances.live.source_eq
  have hsplit : bytes ++ rest = b'.kept ++ source.content := by
    rw [← hunread, hadvances.unread_eq, hadvances.live.unread_eq hsource, List.nil_append]
  obtain ⟨rest', hrest⟩ := List.prefix_of_prefix_length_le ⟨rest, rfl⟩ ⟨source.content, hsplit.symm⟩ (hkept hle)
  rw [decide_eq_true hle] at hrun
  exact ⟨b', rest', hrun, hadvances, hrest.symm⟩

/-- Asking for more bytes than there are. -/
theorem fill_run_of_lt {b : ReplayBuffer} (h : b.Live) {wanted : Nat} (hlt : b.unread.length < wanted) :
    ∃ b', (fill wanted).run.run b = (.ok false, b') := by
  obtain ⟨b', hrun, _⟩ := fill_run h wanted
  rw [decide_eq_false (Nat.not_le.2 hlt)] at hrun
  exact ⟨b', hrun⟩

theorem bytes_run {b : ReplayBuffer} (h : b.Live) {bytes rest : List UInt8} (hunread : b.unread = bytes ++ rest) :
    ∃ b', (Replay.bytes bytes.length).run.run b = (.ok bytes, b') ∧ b.Advances bytes b' := by
  obtain ⟨b', rest', hrun, hadvances, hkept⟩ := fill_run_of_prefix h hunread
  refine ⟨_, ?_, hadvances.trans (hadvances.live.advances_kept hkept)⟩
  have hextract : (b'.buffer.extract b'.cursor (b'.cursor + bytes.length)).toList = bytes := by
    rw [Array.toList_extract, List.extract_eq_take_drop, Nat.add_sub_cancel_left, ← kept, hkept, List.take_left]
  simp only [Replay.bytes, advance, run_bind, hrun, reduceIte, run_get, run_modify, run_pure, hextract]

theorem byte_run {b : ReplayBuffer} (h : b.Live) {first : UInt8} {rest : List UInt8}
    (hunread : b.unread = [first] ++ rest) : ∃ b', byte.run.run b = (.ok first, b') ∧ b.Advances [first] b' := by
  obtain ⟨b', rest', hrun, hadvances, hkept⟩ := fill_run_of_prefix h hunread
  refine ⟨_, ?_, hadvances.trans (hadvances.live.advances_kept hkept)⟩
  rw [List.length_singleton] at hrun
  have hfirst : b'.buffer[b'.cursor]? = some first := (getElem?_of_drop_eq_cons hkept).1
  simp only [byte, advance, run_bind, hrun, reduceIte, run_get, run_modify, run_pure, hfirst, Option.getD_some,
    List.length_singleton]

theorem fails_outOfBytes {α : Type} (b : ReplayBuffer) : Fails (outOfBytes : Replay α) b := ⟨_, b, rfl⟩

theorem bytes_fails {b : ReplayBuffer} (h : b.Live) {count : Nat} (hlt : b.unread.length < count) :
    Fails (Replay.bytes count) b := by
  obtain ⟨b', hrun⟩ := fill_run_of_lt h hlt
  exact fails_bind_ok hrun ((fails_outOfBytes b').bind _)

theorem byte_fails {b : ReplayBuffer} (h : b.Live) (hnone : b.unread = []) : Fails byte b := by
  have hlt : b.unread.length < 1 := by
    rw [hnone]
    exact Nat.one_pos
  obtain ⟨b', hrun⟩ := fill_run_of_lt h hlt
  exact fails_bind_ok hrun ((fails_outOfBytes b').bind _)

theorem keptCstring_run {b : ReplayBuffer} {name rest : List UInt8} (hkept : b.kept = name ++ 0 :: rest)
    (hname : 0 ∉ name) :
    keptCstring.run.run b = (.ok name, { b with cursor := b.cursor + (name ++ [0]).length }) := by
  have hcount : name.length < b.available := by
    rw [← Live.length_kept, hkept, List.length_append, List.length_cons]
    omega
  have hextract : (b.buffer.extract b.cursor (b.cursor + name.length)).toList = name := by
    rw [Array.toList_extract, List.extract_eq_take_drop, Nat.add_sub_cancel_left, ← kept, hkept, List.take_left]
  simp only [keptCstring, run_bind, run_get, nulIndex?_of_drop hkept hname hcount, run_set, run_pure, hextract,
    List.length_append, List.length_singleton, Nat.add_assoc]

theorem keptCstring_fails {b : ReplayBuffer} (h : b.Live) (hkept : 0 ∉ b.kept) : Fails keptCstring b := by
  obtain ⟨source, hsource, hending⟩ := h.source_eq
  refine fails_bind_ok (run_get b) ?_
  simp only [nulIndex?_eq_none hkept, hsource, hending, checkEnding]
  exact fails_outOfBytes b

/-- Text up to a NUL is looked for among bytes that are kept in the end. -/
theorem exists_cstring_run {b : ReplayBuffer} (h : b.Live) :
    ∃ b', cstring.run.run b = keptCstring.run.run b' ∧ b.Advances [] b' ∧ (0 ∈ b.unread → 0 ∈ b'.kept) := by
  obtain ⟨source, hsource, _⟩ := h.source_eq
  by_cases hmem : 0 ∈ b.kept
  · obtain ⟨name, rest, hkept, hname⟩ := List.eq_append_cons_of_mem hmem
    have hcount : name.length < b.available := by
      rw [← Live.length_kept, hkept, List.length_append, List.length_cons]
      omega
    refine ⟨b, ?_, h.refl, fun _ => hmem⟩
    rw [cstring_run hsource, nulIndex?_of_drop hkept hname hcount]
    rfl
  · have hreceive := receiveNul_spec source.deliveries b.buffer
    have hrun := cstring_run hsource
    rw [nulIndex?_eq_none hmem] at hrun
    rcases hr : receiveNul source.deliveries b.buffer with ⟨buffer, deliveries⟩
    rw [hr] at hreceive hrun
    obtain ⟨hall, hsize, hend⟩ := hreceive
    have hadvances := h.advances_received hsource hall hsize
    refine ⟨_, hrun, hadvances, fun hzero => ?_⟩
    rcases hend with hnew | hnone
    · exact List.drop_subset_drop_left _ h.cursor_le hnew
    · have hunread := hadvances.unread_eq.trans (hadvances.live.unread_eq rfl)
      rwa [hunread, Source.content, hnone, Source.brought, List.flatMap_nil, List.append_nil] at hzero

/-- Bytes without a NUL and a NUL after them are read, wherever the kept bytes end. -/
theorem cstring_run_of_prefix {b : ReplayBuffer} (h : b.Live) {name rest : List UInt8}
    (hunread : b.unread = name ++ 0 :: rest) (hname : 0 ∉ name) :
    ∃ b', cstring.run.run b = (.ok name, b') ∧ b.Advances (name ++ [0]) b' := by
  obtain ⟨b', hrun, hadvances, hkept⟩ := exists_cstring_run h
  have hzero : 0 ∈ b'.kept := hkept (by rw [hunread]; exact List.mem_append_right _ List.mem_cons_self)
  obtain ⟨name', rest', hsplit, hname'⟩ := List.eq_append_cons_of_mem hzero
  obtain ⟨source, hsource, _⟩ := hadvances.live.source_eq
  have hall : name ++ 0 :: rest = name' ++ 0 :: (rest' ++ source.content) := by
    rw [← hunread, hadvances.unread_eq, hadvances.live.unread_eq hsource, hsplit, List.nil_append, List.append_assoc]
    rfl
  obtain ⟨rfl, -⟩ := append_zero_inj hname hname' hall
  have hkeep : b'.kept = (name ++ [0]) ++ rest' := by rw [hsplit, List.append_assoc]; rfl
  exact ⟨_, hrun.trans (keptCstring_run hsplit hname), hadvances.trans (hadvances.live.advances_kept hkeep)⟩

theorem cstring_fails {b : ReplayBuffer} (h : b.Live) (hunread : 0 ∉ b.unread) : Fails cstring b := by
  obtain ⟨b', hrun, hadvances, -⟩ := exists_cstring_run h
  obtain ⟨source, hsource, _⟩ := hadvances.live.source_eq
  rw [hadvances.unread_eq, hadvances.live.unread_eq hsource, List.nil_append, List.mem_append, not_or] at hunread
  obtain ⟨e, t, hfail⟩ := keptCstring_fails hadvances.live hunread.1
  exact ⟨e, t, hrun.trans hfail⟩

end Replay

end Aggregation.Wire
