import Aggregation.Proofs.Wire.Input

/-! A buffer as a window on everything that its source hands out. What is kept lies somewhere in that sequence of
bytes; a step on the buffer is a step of a cursor over the sequence, and its outcome depends neither on how much is
kept nor on the pieces in which the rest arrives. -/

namespace Aggregation.Wire

open Stepping ReplayBuffer Source

/-- The bytes that a source hands out from the start to the end, and what its reads do after that. -/
structure Feed where
  bytes : List UInt8
  ending : Ending

namespace Feed

/-- The error of a step that needs more bytes than there are. -/
def shortage (feed : Feed) : WireError :=
  match feed.ending with
  | .ends => .unexpectedEnd feed.bytes.length
  | .fails message => .io message

/-- What is said about bytes after the last one. -/
def afterLast (feed : Feed) : Except WireError Bool :=
  match feed.ending with
  | .ends => .ok false
  | .fails message => .error (.io message)

end Feed

def Source.feed (s : Source) : Feed := ⟨s.content, s.ending⟩

namespace ReplayBuffer

variable {feed : Feed} {b b' b'' : ReplayBuffer}

/-- The kept bytes and those that are still to be delivered are the bytes of the feed from `base` on, and everything
that is pinned is kept. -/
structure Window (feed : Feed) (b : ReplayBuffer) : Prop where
  source_eq : ∃ deliveries, b.source = some ⟨deliveries, feed.ending⟩ ∧
    b.buffer.toList ++ brought deliveries = feed.bytes.drop b.base
  base_le : b.base ≤ feed.bytes.length
  cursor_le : b.cursor ≤ b.buffer.size
  pinned : ∀ pin ∈ b.pins, b.base ≤ pin.position ∧ pin.position ≤ b.frontier
  fresh : ∀ pin ∈ b.pins, pin.serial < b.nextPin

/-- From one buffer to another the cursor has come to a position, and the pins are the same. -/
structure Reaches (feed : Feed) (b : ReplayBuffer) (position : Nat) (b' : ReplayBuffer) : Prop where
  window : b'.Window feed
  position_eq : b'.position = position
  pins_eq : b'.pins = b.pins
  nextPin_eq : b'.nextPin = b.nextPin

theorem Window.reaches_self (h : b.Window feed) : Reaches feed b b.position b := ⟨h, rfl, rfl, rfl⟩

theorem Reaches.trans {p p' : Nat} (h : Reaches feed b p b') (h' : Reaches feed b' p' b'') : Reaches feed b p' b'' :=
  ⟨h'.window, h'.position_eq, h'.pins_eq.trans h.pins_eq, h'.nextPin_eq.trans h.nextPin_eq⟩

theorem Window.isReleased_eq (h : b.Window feed) : b.isReleased = false := by
  obtain ⟨deliveries, hsource, -⟩ := h.source_eq
  simp [isReleased, hsource]

theorem window_of_source (source : Source) : Window source.feed { source := some source } where
  source_eq := ⟨source.deliveries, rfl, rfl⟩
  base_le := Nat.zero_le _
  cursor_le := Nat.zero_le _
  pinned := by simp
  fresh := by simp

/-- Kept and undelivered bytes together are everything from the cursor on. -/
theorem Window.kept_append (h : b.Window feed) {deliveries : List Delivery}
    (hsource : b.source = some ⟨deliveries, feed.ending⟩) :
    b.kept ++ brought deliveries = feed.bytes.drop b.position := by
  obtain ⟨deliveries', hsource', hbytes⟩ := h.source_eq
  obtain rfl : deliveries = deliveries' := by
    rw [hsource] at hsource'
    cases hsource'
    rfl
  have hcursor : b.cursor ≤ b.buffer.toList.length := by simpa using h.cursor_le
  rw [kept, ← List.drop_append_of_le_length hcursor, hbytes, List.drop_drop, position]

theorem Window.take_kept (h : b.Window feed) {count : Nat} (hkept : b.cursor + count ≤ b.buffer.size) :
    b.kept.take count = (feed.bytes.drop b.position).take count := by
  obtain ⟨deliveries, hsource, -⟩ := h.source_eq
  rw [← h.kept_append hsource, List.take_append_of_le_length]
  rw [kept, List.length_drop, Array.length_toList]
  omega

theorem Window.frontier_add (h : b.Window feed) {deliveries : List Delivery}
    (hsource : b.source = some ⟨deliveries, feed.ending⟩) :
    b.frontier + (brought deliveries).length = feed.bytes.length := by
  have hlength := congrArg List.length (h.kept_append hsource)
  have hbase := h.base_le
  have hcursor := h.cursor_le
  obtain ⟨deliveries', hsource', hbytes⟩ := h.source_eq
  rw [hsource] at hsource'
  cases hsource'
  have hall := congrArg List.length hbytes
  rw [List.length_append, List.length_drop, Array.length_toList] at hall
  rw [ReplayBuffer.frontier]
  omega

/-- A source that has delivered everything leaves everything kept. -/
theorem Window.kept_eq (h : b.Window feed) (hsource : b.source = some ⟨[], feed.ending⟩) :
    b.kept = feed.bytes.drop b.position ∧ b.frontier = feed.bytes.length := by
  have hkept := h.kept_append hsource
  have hfrontier := h.frontier_add hsource
  rw [brought, List.flatMap_nil] at hkept hfrontier
  exact ⟨by rwa [List.append_nil] at hkept, hfrontier⟩

theorem Window.position_le (h : b.Window feed) : b.position ≤ feed.bytes.length := by
  obtain ⟨deliveries, hsource, -⟩ := h.source_eq
  have hfrontier := h.frontier_add hsource
  have hcursor := h.cursor_le
  rw [ReplayBuffer.frontier] at hfrontier
  rw [position]
  omega

/-- What has not been read is what the feed has from the position on. -/
theorem Window.supply_eq (h : b.Window feed) : b.supply = feed.bytes.length - b.position := by
  obtain ⟨deliveries, hsource, -⟩ := h.source_eq
  have hlength := congrArg List.length (h.kept_append hsource)
  have hremaining := length_content ⟨deliveries, feed.ending⟩
  rw [content] at hremaining
  rw [List.length_append, Live.length_kept, List.length_drop, hremaining] at hlength
  rw [supply, hsource]
  exact hlength

/-- Taking deliveries into the buffer moves nothing. -/
theorem Window.reaches_received (h : b.Window feed) {deliveries later : List Delivery} {buffer : Array UInt8}
    (hsource : b.source = some ⟨deliveries, feed.ending⟩)
    (hall : buffer.toList ++ brought later = b.buffer.toList ++ brought deliveries)
    (hsize : b.buffer.size ≤ buffer.size) :
    Reaches feed b b.position { b with buffer, source := some ⟨later, feed.ending⟩ } := by
  obtain ⟨deliveries', hsource', hbytes⟩ := h.source_eq
  rw [hsource] at hsource'
  cases hsource'
  refine ⟨⟨⟨later, rfl, hall.trans hbytes⟩, h.base_le, Nat.le_trans h.cursor_le hsize, ?_, h.fresh⟩, rfl, rfl, rfl⟩
  intro pin hpin
  obtain ⟨hbase, hfrontier⟩ := h.pinned pin hpin
  exact ⟨hbase, Nat.le_trans hfrontier (Nat.add_le_add_left hsize _)⟩

/-- The cursor may stand anywhere among the kept bytes. -/
theorem Window.reaches_cursor (h : b.Window feed) {cursor : Nat} (hcursor : cursor ≤ b.buffer.size) :
    Reaches feed b (b.base + cursor) { b with cursor } :=
  ⟨⟨h.source_eq, h.base_le, hcursor, h.pinned, h.fresh⟩, rfl, rfl, rfl⟩

/-- Moving the cursor on over kept bytes. -/
theorem Window.reaches_advanced (h : b.Window feed) {count : Nat} (hkept : b.cursor + count ≤ b.buffer.size) :
    Reaches feed b (b.position + count) { b with cursor := b.cursor + count } := by
  have hreaches := h.reaches_cursor hkept
  rwa [← Nat.add_assoc] at hreaches

/-! ## Pins and what they keep -/

theorem le_oldest_iff {n : Nat} : n ≤ b.oldest ↔ n ≤ b.position ∧ ∀ pin ∈ b.pins, n ≤ pin.position := by
  rw [oldest]
  generalize b.position = least
  induction b.pins generalizing least with
  | nil => simp
  | cons pin pins ih => rw [List.foldl_cons, ih, Nat.le_min, and_assoc, List.forall_mem_cons]

/-- Forgetting bytes moves nothing and takes from no pin what it keeps. -/
theorem Window.reaches_compact (h : b.Window feed) : Reaches feed b b.position b.compact := by
  obtain ⟨deliveries, hsource, hbytes⟩ := h.source_eq
  have hbase : b.base ≤ b.oldest :=
    le_oldest_iff.2 ⟨Nat.le_add_right _ _, fun pin hpin => (h.pinned pin hpin).1⟩
  obtain ⟨hposition, hpins⟩ := le_oldest_iff.1 (Nat.le_refl b.oldest)
  have hcursor := h.cursor_le
  rw [position] at hposition
  have hdiscard : b.oldest - b.base ≤ b.buffer.toList.length := by
    rw [Array.length_toList]
    omega
  have hsize : b.compact.buffer.size = b.buffer.size - (b.oldest - b.base) := by simp [compact]
  refine ⟨⟨⟨deliveries, hsource, ?_⟩, ?_, ?_, fun pin hpin => ?_, h.fresh⟩, ?_, rfl, rfl⟩
  · have hkept : b.compact.buffer.toList = b.buffer.toList.drop (b.oldest - b.base) := by
      simp [compact, List.take_of_length_le]
    rw [hkept, ← List.drop_append_of_le_length hdiscard, hbytes, List.drop_drop]
    rfl
  · have hend := h.position_le
    rw [position] at hend
    show b.base + (b.oldest - b.base) ≤ feed.bytes.length
    omega
  · rw [hsize]
    show b.cursor - (b.oldest - b.base) ≤ b.buffer.size - (b.oldest - b.base)
    omega
  · have hpin' := hpins pin hpin
    have hfrontier := (h.pinned pin hpin).2
    rw [ReplayBuffer.frontier] at hfrontier ⊢
    rw [hsize]
    show b.base + (b.oldest - b.base) ≤ pin.position ∧
      pin.position ≤ b.base + (b.oldest - b.base) + (b.buffer.size - (b.oldest - b.base))
    omega
  · show b.base + (b.oldest - b.base) + (b.cursor - (b.oldest - b.base)) = b.base + b.cursor
    omega

theorem mem_pin_pins {pin : Pin} : pin ∈ b.pin.2.pins ↔ pin ∈ b.pins ∨ pin = b.pin.1 := by
  simp [ReplayBuffer.pin]

theorem Window.pin (h : b.Window feed) : b.pin.2.Window feed where
  source_eq := h.source_eq
  base_le := h.base_le
  cursor_le := h.cursor_le
  pinned := by
    intro pin hpin
    rcases mem_pin_pins.1 hpin with hpin | rfl
    · exact h.pinned pin hpin
    · exact ⟨Nat.le_add_right _ _, Nat.add_le_add_left h.cursor_le _⟩
  fresh := by
    intro pin hpin
    rcases mem_pin_pins.1 hpin with hpin | rfl
    · exact Nat.lt_succ_of_lt (h.fresh pin hpin)
    · exact Nat.lt_succ_self _

theorem Window.unpin (h : b.Window feed) (serial : Nat) : (b.unpin serial).Window feed where
  source_eq := h.source_eq
  base_le := h.base_le
  cursor_le := h.cursor_le
  pinned := fun pin hpin => h.pinned pin (List.mem_filter.1 hpin).1
  fresh := fun pin hpin => h.fresh pin (List.mem_filter.1 hpin).1

/-- What is pinned can be returned to. -/
theorem Window.exists_rewind (h : b.Window feed) {pin : Pin} (hpin : pin ∈ b.pins) :
    ∃ b', b.rewind? pin.position = some b' ∧ Reaches feed b pin.position b' := by
  obtain ⟨hbase, hfrontier⟩ := h.pinned pin hpin
  have hreaches : Reaches feed b (b.base + (pin.position - b.base)) { b with cursor := pin.position - b.base } := by
    apply h.reaches_cursor
    rw [ReplayBuffer.frontier] at hfrontier
    omega
  rw [Nat.add_sub_cancel' hbase] at hreaches
  exact ⟨_, if_neg (by omega), hreaches⟩

end ReplayBuffer

namespace Replay

variable {feed : Feed} {b : ReplayBuffer} {α β : Type}

/-- Asking for bytes keeps as many if there are as many, and otherwise keeps all. -/
theorem fill_run_of_window (h : b.Window feed) (wanted : Nat) :
    ∃ b', Reaches feed b b.position b' ∧
      ((b.position + wanted ≤ feed.bytes.length ∧ (fill wanted).run.run b = (.ok true, b') ∧
          b'.cursor + wanted ≤ b'.buffer.size) ∨
        (feed.bytes.length < b.position + wanted ∧ (fill wanted).run.run b = (feed.afterLast, b') ∧
          b'.frontier = feed.bytes.length)) := by
  obtain ⟨deliveries, hsource, -⟩ := h.source_eq
  have hreceive := receive_spec (b.cursor + wanted) deliveries b.buffer
  rcases hr : receive (b.cursor + wanted) deliveries b.buffer with ⟨buffer, later⟩
  rw [hr] at hreceive
  obtain ⟨hall, hsize, hend⟩ := hreceive
  have hreaches := h.reaches_received hsource hall hsize
  have hfrontier := hreaches.window.frontier_add rfl
  refine ⟨_, hreaches, ?_⟩
  simp only [ReplayBuffer.frontier] at hfrontier
  by_cases htarget : b.cursor + wanted ≤ buffer.size
  · refine .inl ⟨by rw [position]; omega, ?_, htarget⟩
    simp only [fill, run_bind, run_get, hsource, hr, run_set, if_pos htarget, run_pure]
  · have hnone : later = [] := hend.resolve_left htarget
    have hlast : b.base + buffer.size = feed.bytes.length := by
      simpa [hnone, brought] using hfrontier
    refine .inr ⟨by rw [position]; omega, ?_, hlast⟩
    cases hending : feed.ending with
    | ends =>
        simp only [fill, run_bind, run_get, hsource, hr, run_set, if_neg htarget, hending, checkEnding, run_pure,
          Feed.afterLast]
    | fails message =>
        simp only [fill, run_bind, run_get, hsource, hr, run_set, if_neg htarget, hending, checkEnding, run_throw,
          Feed.afterLast]

/-- Wherever a window on the feed stands at a position, a step has one result and comes to one position. -/
def Settles (feed : Feed) (x : Replay α) (position : Nat) (result : Except WireError α) (next : Nat) : Prop :=
  ∀ b : ReplayBuffer, b.Window feed → b.position = position →
    ∃ b', x.run.run b = (result, b') ∧ Reaches feed b next b'

theorem Settles.bind_ok {x : Replay α} {f : α → Replay β} {a : α} {result : Except WireError β} {p q q' : Nat}
    (hx : Settles feed x p (.ok a) q) (hf : Settles feed (f a) q result q') : Settles feed (x >>= f) p result q' := by
  intro b hb hp
  obtain ⟨b', hrun, hreaches⟩ := hx b hb hp
  obtain ⟨b'', hrun', hreaches'⟩ := hf b' hreaches.window hreaches.position_eq
  exact ⟨b'', (run_bind_ok hrun).trans hrun', hreaches.trans hreaches'⟩

theorem Settles.bind_error {x : Replay α} {e : WireError} {p q : Nat} (hx : Settles feed x p (.error e) q)
    (f : α → Replay β) : Settles feed (x >>= f) p (.error e) q := by
  intro b hb hp
  obtain ⟨b', hrun, hreaches⟩ := hx b hb hp
  exact ⟨b', run_bind_error hrun, hreaches⟩

theorem settles_pure (a : α) (p : Nat) : Settles feed (pure a) p (.ok a) p := by
  intro b hb hp
  exact ⟨b, run_pure a b, hp ▸ hb.reaches_self⟩

theorem settles_hasRemaining (p : Nat) :
    Settles feed hasRemaining p (if p < feed.bytes.length then .ok true else feed.afterLast) p := by
  rintro b hb rfl
  obtain ⟨b', hreaches, ⟨hle, hrun, -⟩ | ⟨hlt, hrun, -⟩⟩ := fill_run_of_window hb 1
  · rw [if_pos (Nat.lt_of_succ_le hle)]
    exact ⟨b', hrun, hreaches⟩
  · rw [if_neg (by omega)]
    exact ⟨b', hrun, hreaches⟩

/-- A step that asks for bytes first does what follows if there are as many. -/
theorem settles_demand_of_le {count p : Nat} {k : Unit → Replay α} {result : Except WireError α}
    (hle : p + count ≤ feed.bytes.length)
    (hk : ∀ b : ReplayBuffer, b.Window feed → b.position = p → b.cursor + count ≤ b.buffer.size →
      ∃ b', (k ()).run.run b = (result, b') ∧ Reaches feed b (p + count) b') :
    Settles feed (fill count >>= fun filled => if filled then k () else outOfBytes >>= k) p result (p + count) := by
  rintro b hb rfl
  obtain ⟨b', hreaches, ⟨-, hrun, hkept⟩ | ⟨hlt, -⟩⟩ := fill_run_of_window hb count
  · obtain ⟨b'', hrun', hreaches'⟩ := hk b' hreaches.window hreaches.position_eq hkept
    exact ⟨b'', (run_bind_ok hrun).trans hrun', hreaches.trans hreaches'⟩
  · omega

/-- A step that asks for more bytes than there are fails and moves nothing. -/
theorem settles_demand_of_lt {count p : Nat} (k : Unit → Replay α) (hlt : feed.bytes.length < p + count) :
    Settles feed (fill count >>= fun filled => if filled then k () else outOfBytes >>= k) p
      (.error feed.shortage) p := by
  rintro b hb rfl
  obtain ⟨b', hreaches, ⟨hle, -⟩ | ⟨-, hrun, hlast⟩⟩ := fill_run_of_window hb count
  · omega
  · refine ⟨b', ?_, hreaches⟩
    cases hending : feed.ending with
    | ends =>
        simp only [Feed.afterLast, hending] at hrun
        rw [run_bind_ok hrun]
        simp only [Bool.false_eq_true, reduceIte, outOfBytes, run_bind, run_get, run_throw, hlast, Feed.shortage,
          hending]
    | fails message =>
        simp only [Feed.afterLast, hending] at hrun
        simp only [run_bind_error hrun, Feed.shortage, hending]

theorem settles_bytes_of_le {count p : Nat} (hle : p + count ≤ feed.bytes.length) :
    Settles feed (bytes count) p (.ok ((feed.bytes.drop p).take count)) (p + count) := by
  refine settles_demand_of_le hle ?_
  rintro b hb rfl hkept
  have hbytes : (b.buffer.extract b.cursor (b.cursor + count)).toList = (feed.bytes.drop b.position).take count := by
    rw [Array.toList_extract, List.extract_eq_take_drop, Nat.add_sub_cancel_left, ← kept, hb.take_kept hkept]
  refine ⟨_, ?_, hb.reaches_advanced hkept⟩
  simp only [advance, run_bind, run_get, run_modify, run_pure, hbytes]

theorem length_of_bytes_run {b' : ReplayBuffer} {count : Nat} {given : List UInt8} (h : b.Window feed)
    (hrun : (bytes count).run.run b = (.ok given, b')) : given.length = count := by
  rcases Nat.lt_or_ge feed.bytes.length (b.position + count) with hlt | hle
  · obtain ⟨b'', hrun', -⟩ := settles_demand_of_lt _ hlt b h rfl
    cases hrun.symm.trans hrun'
  · obtain ⟨b'', hrun', -⟩ := settles_bytes_of_le hle b h rfl
    cases hrun.symm.trans hrun'
    rw [List.length_take, List.length_drop]
    omega

theorem settles_skip_of_le {count p : Nat} (hle : p + count ≤ feed.bytes.length) :
    Settles feed (skip count) p (.ok ()) (p + count) := by
  refine settles_demand_of_le hle ?_
  rintro b hb rfl hkept
  exact ⟨_, run_modify _ b, hb.reaches_advanced hkept⟩

theorem settles_byte_of_lt {p : Nat} (hlt : p < feed.bytes.length) :
    Settles feed byte p (.ok feed.bytes[p]) (p + 1) := by
  refine settles_demand_of_le hlt ?_
  rintro b hb rfl hkept
  have hbyte : b.buffer[b.cursor]? = some feed.bytes[b.position] := by
    have htake := congrArg (·[0]?) (hb.take_kept hkept)
    rw [← List.getElem?_eq_getElem hlt]
    simpa [kept] using htake
  refine ⟨_, ?_, hb.reaches_advanced hkept⟩
  simp only [advance, run_bind, run_get, run_modify, run_pure, hbyte, Option.getD_some]

/-- Text up to a NUL is looked for among kept bytes, and all are kept before it is missed. -/
theorem exists_keptCstring_of_window (h : b.Window feed) :
    ∃ b', cstring.run.run b = keptCstring.run.run b' ∧ Reaches feed b b.position b' ∧
      (0 ∈ b'.kept ∨ b'.kept = feed.bytes.drop b.position ∧ b'.frontier = feed.bytes.length) := by
  obtain ⟨deliveries, hsource, -⟩ := h.source_eq
  have hrun := cstring_run hsource
  by_cases hmem : 0 ∈ b.kept
  · obtain ⟨name, rest, hkept, hname⟩ := List.eq_append_cons_of_mem hmem
    have hcount : name.length < b.available := by
      rw [← Live.length_kept, hkept, List.length_append, List.length_cons]
      omega
    rw [nulIndex?_of_drop hkept hname hcount] at hrun
    exact ⟨b, hrun, h.reaches_self, .inl hmem⟩
  · have hreceive := receiveNul_spec deliveries b.buffer
    rw [nulIndex?_eq_none hmem] at hrun
    rcases hr : receiveNul deliveries b.buffer with ⟨buffer, later⟩
    rw [hr] at hreceive hrun
    obtain ⟨hall, hsize, hend⟩ := hreceive
    have hreaches := h.reaches_received hsource hall hsize
    refine ⟨_, hrun, hreaches, hend.imp (fun hnew => ?_) fun hnone => ?_⟩
    · exact List.drop_subset_drop_left _ h.cursor_le hnew
    · exact hreaches.window.kept_eq (by rw [hnone])

theorem settles_cstring_of_nul {p : Nat} {name rest : List UInt8} (hbytes : feed.bytes.drop p = name ++ 0 :: rest)
    (hname : 0 ∉ name) : Settles feed cstring p (.ok name) (p + (name ++ [0]).length) := by
  rintro b hb rfl
  obtain ⟨b', hrun, hreaches, hfound⟩ := exists_keptCstring_of_window hb
  obtain ⟨deliveries, hsource, -⟩ := hreaches.window.source_eq
  have hall := hreaches.window.kept_append hsource
  rw [hreaches.position_eq, hbytes] at hall
  have hzero : 0 ∈ b'.kept := by
    rcases hfound with hzero | ⟨hkept, -⟩
    · exact hzero
    · simp [hkept, hbytes]
  obtain ⟨name', rest', hkept, hname'⟩ := List.eq_append_cons_of_mem hzero
  rw [hkept, List.append_assoc, List.cons_append] at hall
  obtain ⟨rfl, -⟩ := append_zero_inj hname' hname hall
  have hcursor : b'.cursor + (name' ++ [0]).length ≤ b'.buffer.size := by
    have hlength := congrArg List.length hkept
    rw [Live.length_kept, available, List.length_append, List.length_cons] at hlength
    rw [List.length_append, List.length_singleton]
    omega
  refine ⟨_, hrun.trans (keptCstring_run hkept hname'), ?_⟩
  rw [← hreaches.position_eq]
  exact hreaches.trans (hreaches.window.reaches_advanced hcursor)

theorem settles_cstring_of_not_mem {p : Nat} (hnone : 0 ∉ feed.bytes.drop p) :
    Settles feed cstring p (.error feed.shortage) p := by
  rintro b hb rfl
  obtain ⟨b', hrun, hreaches, hfound⟩ := exists_keptCstring_of_window hb
  obtain ⟨deliveries, hsource, -⟩ := hreaches.window.source_eq
  have hmissing : 0 ∉ b'.kept := by
    intro hzero
    have hall := hreaches.window.kept_append hsource
    rw [hreaches.position_eq] at hall
    exact hnone (hall ▸ List.mem_append_left _ hzero)
  have hlast := (hfound.resolve_left hmissing).2
  refine ⟨b', ?_, hreaches⟩
  rw [hrun]
  cases hending : feed.ending with
  | ends =>
      simp only [keptCstring, run_bind, run_get, nulIndex?_eq_none hmissing, hsource, hending, checkEnding, run_pure,
        outOfBytes, run_throw, hlast, Feed.shortage]
  | fails message =>
      simp only [keptCstring, run_bind, run_get, nulIndex?_eq_none hmissing, hsource, hending, checkEnding, run_throw,
        Feed.shortage]

/-! ## Steps that depend on nothing else -/

theorem keeps_base_outOfBytes : Keeps base (outOfBytes : Replay α) := fun _ => rfl

theorem keeps_base_checkEnding (ending : Ending) : Keeps base (checkEnding ending) := by
  cases ending with
  | ends => exact keeps_pure ()
  | fails message => exact keeps_throw _

theorem keeps_base_fill (wanted : Nat) : Keeps base (fill wanted) := by
  apply keeps_get_bind
  intro b
  cases b.source with
  | none => rfl
  | some source =>
      dsimp only
      rw [run_bind_ok (run_set _ _)]
      split
      · rfl
      · exact (keeps_base_checkEnding _).bind (fun _ => keeps_pure false) _

theorem keeps_base_advance (count : Nat) : Keeps base (advance count) := keeps_modify fun _ => rfl

/-- A step that asks for bytes first keeps the base if what follows does. -/
theorem keeps_base_demand {count : Nat} {k : Unit → Replay α} (hk : ∀ a, Keeps base (k a)) :
    Keeps base (fill count >>= fun filled => if filled then k () else outOfBytes >>= k) :=
  (keeps_base_fill count).bind fun _ => keeps_ite (hk ()) (keeps_base_outOfBytes.bind hk)

theorem keeps_base_cstring : Keeps base cstring := by
  have hlook : Keeps base keptCstring := by
    apply keeps_get_bind
    intro b
    cases nulIndex? b.buffer b.available b.cursor with
    | some i => rfl
    | none =>
        cases b.source with
        | none => rfl
        | some source => exact (keeps_base_checkEnding _).bind (fun _ => keeps_base_outOfBytes) b
  apply keeps_get_bind
  intro b
  cases (nulIndex? b.buffer b.available b.cursor).isNone with
  | false =>
      simp only [Bool.false_eq_true, reduceIte]
      exact hlook b
  | true =>
      simp only [reduceIte]
      cases b.source with
      | none => rfl
      | some source => exact hlook _

/-- The outcome of a step depends on the feed and on the position alone. The step does not go back, and it forgets no
bytes. -/
structure Steady (x : Replay α) : Prop where
  settles : ∀ feed position, ∃ result next, position ≤ next ∧ Settles feed x position result next
  keeps : Keeps base x

theorem Steady.bind {x : Replay α} {f : α → Replay β} (hx : Steady x) (hf : ∀ a, Steady (f a)) :
    Steady (x >>= f) := by
  refine ⟨fun feed p => ?_, hx.keeps.bind fun a => (hf a).keeps⟩
  obtain ⟨e | a, q, hq, hx⟩ := hx.settles feed p
  · exact ⟨_, q, hq, hx.bind_error f⟩
  · obtain ⟨result, q', hq', hf⟩ := (hf a).settles feed q
    exact ⟨result, q', Nat.le_trans hq hq', hx.bind_ok hf⟩

theorem steady_pure (a : α) : Steady (pure a : Replay α) :=
  ⟨fun _ p => ⟨_, p, Nat.le_refl p, settles_pure a p⟩, keeps_pure a⟩

theorem steady_hasRemaining : Steady hasRemaining :=
  ⟨fun _ p => ⟨_, p, Nat.le_refl p, settles_hasRemaining p⟩, keeps_base_fill 1⟩

theorem steady_bytes (count : Nat) : Steady (bytes count) := by
  refine ⟨fun feed p => ?_, keeps_base_demand fun _ => keeps_get_bind fun b => rfl⟩
  rcases Nat.lt_or_ge feed.bytes.length (p + count) with hlt | hle
  · exact ⟨_, p, Nat.le_refl p, settles_demand_of_lt _ hlt⟩
  · exact ⟨_, _, Nat.le_add_right p _, settles_bytes_of_le hle⟩

theorem steady_skip (count : Nat) : Steady (skip count) := by
  refine ⟨fun feed p => ?_, keeps_base_demand fun _ => keeps_base_advance count⟩
  rcases Nat.lt_or_ge feed.bytes.length (p + count) with hlt | hle
  · exact ⟨_, p, Nat.le_refl p, settles_demand_of_lt _ hlt⟩
  · exact ⟨_, _, Nat.le_add_right p _, settles_skip_of_le hle⟩

theorem steady_byte : Steady byte := by
  refine ⟨fun feed p => ?_, keeps_base_demand fun _ => keeps_get_bind fun b => rfl⟩
  rcases Nat.lt_or_ge p feed.bytes.length with hlt | hle
  · exact ⟨_, _, Nat.le_add_right p _, settles_byte_of_lt hlt⟩
  · exact ⟨_, p, Nat.le_refl p, settles_demand_of_lt _ (Nat.lt_succ_of_le hle)⟩

theorem steady_cstring : Steady cstring := by
  refine ⟨fun feed p => ?_, keeps_base_cstring⟩
  by_cases hmem : 0 ∈ feed.bytes.drop p
  · obtain ⟨name, rest, hbytes, hname⟩ := List.eq_append_cons_of_mem hmem
    exact ⟨_, _, Nat.le_add_right p _, settles_cstring_of_nul hbytes hname⟩
  · exact ⟨_, p, Nat.le_refl p, settles_cstring_of_not_mem hmem⟩

theorem steady_natural (count : Nat) : Steady (natural count) :=
  (steady_bytes count).bind fun _ => steady_pure _

theorem steady_int32 : Steady int32 := (steady_natural 4).bind fun _ => steady_pure _

theorem steady_int64 : Steady int64 := (steady_natural 8).bind fun _ => steady_pure _

end Replay

end Aggregation.Wire
