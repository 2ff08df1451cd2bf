import Aggregation.Proofs.Wire.Arithmetic
import Aggregation.Proofs.Wire.Extents

/-! The arithmetic of a buffer never fails. Its cursor lies within the bytes that it keeps, and it keeps everything
from the oldest pin on, so a step with checked arithmetic has an outcome, and the same one. -/

namespace Aggregation.Wire

open Stepping

namespace Checked

variable {σ α β : Type}

/-- From a state a checked step has the outcome of a step, which leads to a state in `P`. -/
def SameAt (P : σ → Prop) (x : Checked σ α) (y : ExceptT WireError (StateM σ) α) (s : σ) : Prop :=
  x.run.run s = some (y.run.run s) ∧ P (y.run.run s).2

/-- A checked step has the outcome of a step wherever an invariant holds, and keeps it. -/
def Exact (inv : Feed → σ → Prop) (x : Checked σ α) (y : ExceptT WireError (StateM σ) α) : Prop :=
  ∀ feed s, inv feed s → SameAt (inv feed) x y s

section

variable {P : σ → Prop} {inv : Feed → σ → Prop} {x x' : Checked σ α} {y y' : ExceptT WireError (StateM σ) α} {s t : σ}
  {f : α → Checked σ β} {g : α → ExceptT WireError (StateM σ) β} {c : Prop} [Decidable c] {a : α}

theorem run_bind_ok (h : x.run.run s = some (.ok a, t)) : (x >>= f).run.run s = (f a).run.run t := by
  rw [ExceptT.run_bind, StateT.run_bind, h]
  rfl

theorem run_bind_error {e : WireError} (h : x.run.run s = some (.error e, t)) :
    (x >>= f).run.run s = some (.error e, t) := by
  rw [ExceptT.run_bind, StateT.run_bind, h]
  rfl

theorem run_get_bind {f : σ → Checked σ β} (s : σ) : (get >>= f).run.run s = (f s).run.run s := rfl

/-- What follows some arithmetic that does not fail. -/
theorem run_some_bind {o : Option α} (ho : o = some a) (s : σ) :
    ((liftM o : Checked σ α) >>= f).run.run s = (f a).run.run s := by
  rw [ho]
  rfl

theorem sameAt_pure (h : P s) : SameAt P (pure a) (pure a) s := ⟨rfl, h⟩

theorem sameAt_throw {e : WireError} (h : P s) : SameAt P (throw e : Checked σ α) (throw e) s := ⟨rfl, h⟩

theorem sameAt_set (h : P t) : SameAt P (set t) (set t) s := ⟨rfl, h⟩

theorem sameAt_modify {change : σ → σ} (h : P (change s)) : SameAt P (modify change) (modify change) s := ⟨rfl, h⟩

/-- A step without arithmetic is itself. -/
theorem sameAt_lift (h : P (y.run.run s).2) : SameAt P (liftM y) y s := ⟨rfl, h⟩

theorem SameAt.bind (h : SameAt P x y s)
    (hf : ∀ a t, y.run.run s = (.ok a, t) → P t → SameAt P (f a) (g a) t) : SameAt P (x >>= f) (y >>= g) s := by
  obtain ⟨hx, hP⟩ := h
  rcases hy : y.run.run s with ⟨e | a, t⟩
  · rw [hy] at hx hP
    rw [SameAt, run_bind_error hx, Stepping.run_bind_error hy]
    exact ⟨rfl, hP⟩
  · rw [hy] at hx hP
    rw [SameAt, run_bind_ok hx, Stepping.run_bind_ok hy]
    exact hf a t hy hP

theorem sameAt_get_bind {f : σ → Checked σ β} {g : σ → ExceptT WireError (StateM σ) β}
    (h : SameAt P (f s) (g s) s) : SameAt P (get >>= f) (get >>= g) s := h

theorem sameAt_some_bind {o : Option α} (ho : o = some a) {y : ExceptT WireError (StateM σ) β}
    (h : SameAt P (f a) y s) : SameAt P ((liftM o : Checked σ α) >>= f) y s :=
  ⟨(run_some_bind ho s).trans h.1, h.2⟩

theorem sameAt_ite (hx : c → SameAt P x y s) (hx' : ¬c → SameAt P x' y' s) :
    SameAt P (if c then x else x') (if c then y else y') s := by
  by_cases hc : c
  · rw [if_pos hc, if_pos hc]
    exact hx hc
  · rw [if_neg hc, if_neg hc]
    exact hx' hc

theorem exact_pure (a : α) : Exact inv (pure a) (pure a) := fun _ _ h => sameAt_pure h

theorem exact_throw (e : WireError) : Exact inv (throw e : Checked σ α) (throw e) := fun _ _ h => sameAt_throw h

theorem Exact.bind (hx : Exact inv x y) (hf : ∀ a, Exact inv (f a) (g a)) : Exact inv (x >>= f) (y >>= g) :=
  fun feed s h => (hx feed s h).bind fun a t _ ht => hf a feed t ht

theorem exact_get_bind {f : σ → Checked σ β} {g : σ → ExceptT WireError (StateM σ) β}
    (h : ∀ s, Exact inv (f s) (g s)) : Exact inv (get >>= f) (get >>= g) :=
  fun feed s hs => sameAt_get_bind (h s feed s hs)

theorem exact_some_bind {o : Option α} (ho : o = some a) {y : ExceptT WireError (StateM σ) β}
    (h : Exact inv (f a) y) : Exact inv ((liftM o : Checked σ α) >>= f) y :=
  fun feed s hs => sameAt_some_bind ho (h feed s hs)

theorem exact_some {o : Option α} (ho : o = some a) : Exact inv (liftM o) (pure a) := by
  subst ho
  exact fun _ _ h => ⟨rfl, h⟩

theorem exact_ite (hx : c → Exact inv x y) (hx' : ¬c → Exact inv x' y') :
    Exact inv (if c then x else x') (if c then y else y') :=
  fun feed s h => sameAt_ite (fun hc => hx hc feed s h) fun hc => hx' hc feed s h

/-- A check that may fail, and what follows it. -/
theorem exact_check {x : Checked σ Unit} {y : ExceptT WireError (StateM σ) Unit} {k' : Unit → Checked σ β}
    {k : Unit → ExceptT WireError (StateM σ) β} (hx : Exact inv x y) (hk : ∀ a, Exact inv (k' a) (k a)) :
    Exact inv (if c then x >>= k' else k' ()) (if c then y >>= k else k ()) :=
  exact_ite (fun _ => hx.bind hk) fun _ => hk ()

/-- What follows a failure does not matter. -/
theorem exact_throw_bind (e : WireError) : Exact inv (throw e >>= f) (throw e >>= g) := fun _ _ h => ⟨rfl, h⟩

end

/-! ## Taking deliveries -/

open ReplayBuffer

variable {feed : Feed} {b : ReplayBuffer}

theorem slice_eq {buffer : Array UInt8} {start stop : Nat} (h : start ≤ stop ∧ stop ≤ buffer.size) :
    slice buffer start stop = some (buffer.extract start stop) := if_pos h

theorem available_eq (h : b.cursor ≤ b.buffer.size) : available b = some b.available := Nat.psub_eq_sub h

/-- One byte more than there are unread ones is one more than all that are kept. -/
theorem cursor_add_succ_available (h : b.cursor ≤ b.buffer.size) :
    b.cursor + (b.available + 1) = b.buffer.size + 1 := by
  rw [ReplayBuffer.available]
  omega

theorem receive_eq {cursor : Nat} (wanted : Nat) (deliveries : List Delivery) {buffer : Array UInt8}
    (h : cursor ≤ buffer.size) :
    receive cursor wanted deliveries buffer = some (ReplayBuffer.receive (cursor + wanted) deliveries buffer) := by
  induction deliveries generalizing buffer with
  | nil =>
      simp only [receive, Nat.psub_eq_sub h]
      rfl
  | cons delivery later ih =>
      simp only [receive, Nat.psub_eq_sub h]
      by_cases htarget : cursor + wanted ≤ buffer.size
      · have hwanted : wanted ≤ buffer.size - cursor := Nat.le_sub_of_add_le' htarget
        rw [receive_of_le htarget]
        exact if_pos hwanted
      · have hwanted : ¬wanted ≤ buffer.size - cursor := by omega
        refine (if_neg hwanted).trans ?_
        cases delivery with
        | interrupted =>
            rw [receive_interrupted htarget]
            exact ih h
        | chunk first rest =>
            have hsize := size_chunk buffer first rest
            rw [receive_chunk htarget]
            exact ih (by omega)

theorem run_checkEnding (ending : Ending) (b : ReplayBuffer) : ((Replay.checkEnding ending).run.run b).2 = b := by
  cases ending <;> rfl

theorem exact_fill (wanted : Nat) : Exact Window (fill wanted) (Replay.fill wanted) := by
  intro feed b hb
  obtain ⟨deliveries, hsource, -⟩ := hb.source_eq
  have hcursor := hb.cursor_le
  have hreceive := receive_spec (b.cursor + wanted) deliveries b.buffer
  rcases hr : ReplayBuffer.receive (b.cursor + wanted) deliveries b.buffer with ⟨buffer, later⟩
  rw [hr] at hreceive
  obtain ⟨hall, hsize, -⟩ := hreceive
  dsimp only at hall hsize
  have hwindow := (hb.reaches_received hsource hall hsize).window
  have hwanted : wanted ≤ buffer.size - b.cursor ↔ b.cursor + wanted ≤ buffer.size := by omega
  apply sameAt_get_bind
  simp only [hsource, hr]
  apply sameAt_some_bind ((receive_eq wanted deliveries hcursor).trans (congrArg some hr))
  refine (sameAt_set hwindow).bind ?_
  rintro _ _ ⟨⟩ -
  apply sameAt_some_bind (f := fun n => _) (Nat.psub_eq_sub (Nat.le_trans hcursor hsize))
  simp only [hwanted]
  refine sameAt_ite (fun _ => sameAt_pure hwindow) fun _ => ?_
  refine (sameAt_lift ?_).bind fun _ _ _ ht => sameAt_pure ht
  rwa [run_checkEnding]

/-- What follows a demand for bytes finds them kept. -/
theorem sameAt_demand {count : Nat} {k' : Unit → Checked ReplayBuffer α} {k : Unit → Replay α} (hb : Window feed b)
    (hk : ∀ b, Window feed b → b.cursor + count ≤ b.buffer.size → SameAt (Window feed) (k' ()) (k ()) b) :
    SameAt (Window feed) (fill count >>= fun filled => if filled then k' () else liftM Replay.outOfBytes >>= k')
      (Replay.fill count >>= fun filled => if filled then k () else Replay.outOfBytes >>= k) b := by
  refine (exact_fill count feed b hb).bind fun filled t hrun ht => ?_
  cases filled with
  | true =>
      obtain ⟨b', -, ⟨-, hfill, hkept⟩ | ⟨-, hfill, -⟩⟩ := Replay.fill_run_of_window hb count
      · cases hrun.symm.trans hfill
        exact hk _ ht hkept
      · rw [hrun] at hfill
        obtain ⟨hlast, -⟩ := Prod.mk.inj hfill
        cases hending : feed.ending <;> simp [Feed.afterLast, hending] at hlast
  | false => exact (sameAt_lift ht).bind fun _ _ hfail _ => by cases hfail

/-! ## Numbers of bytes -/

theorem exact_bytes (count : Nat) : Exact Window (bytes count) (Replay.bytes count) := by
  intro feed b hb
  refine sameAt_demand hb fun b hb hkept => ?_
  apply sameAt_get_bind
  refine (sameAt_lift (hb.reaches_advanced hkept).window).bind fun _ t _ ht => ?_
  exact sameAt_some_bind (slice_eq ⟨Nat.le_add_right _ _, hkept⟩) (sameAt_pure ht)

theorem exact_skip (count : Nat) : Exact Window (skip count) (Replay.skip count) := fun _ _ hb =>
  sameAt_demand hb fun _ hb hkept => sameAt_lift (hb.reaches_advanced hkept).window

theorem exact_byte : Exact Window byte Replay.byte := by
  intro feed b hb
  refine sameAt_demand hb fun b hb hkept => ?_
  apply sameAt_get_bind
  refine (sameAt_lift (hb.reaches_advanced hkept).window).bind fun _ t _ ht => ?_
  have hbyte : b.buffer[b.cursor]? = some (b.buffer[b.cursor]?.getD 0) := by
    rw [Array.getElem?_eq_getElem hkept, Option.getD_some]
  rw [hbyte]
  exact ⟨rfl, ht⟩

theorem exact_natural (count : Nat) : Exact Window (natural count) (Replay.natural count) :=
  (exact_bytes count).bind fun _ => exact_pure _

theorem exact_int32 : Exact Window int32 Replay.int32 := (exact_natural 4).bind fun _ => exact_pure _

theorem exact_int64 : Exact Window int64 Replay.int64 := (exact_natural 8).bind fun _ => exact_pure _

/-! ## Text up to a NUL -/

/-- Asking for one byte more than there are brings the next piece of the source, if there is one. -/
theorem receive_next (buffer : Array UInt8) (deliveries : List Delivery) :
    (∃ (first : UInt8) (rest : List UInt8) (later : List Delivery), later.length < deliveries.length ∧
      ReplayBuffer.receive (buffer.size + 1) deliveries buffer = (buffer.push first ++ rest, later) ∧
      receiveNul deliveries buffer =
        if first = 0 ∨ rest.contains 0 then (buffer.push first ++ rest, later)
        else receiveNul later (buffer.push first ++ rest)) ∨
    ReplayBuffer.receive (buffer.size + 1) deliveries buffer = (buffer, []) ∧
      receiveNul deliveries buffer = (buffer, []) := by
  have hsmall : ¬buffer.size + 1 ≤ buffer.size := Nat.not_succ_le_self _
  induction deliveries with
  | nil => exact .inr ⟨rfl, rfl⟩
  | cons delivery later ih =>
      cases delivery with
      | interrupted =>
          rw [receive_interrupted hsmall]
          rcases ih with ⟨first, rest, later', hlength, hreceive, hnul⟩ | hnone
          · exact .inl ⟨first, rest, later', Nat.lt_succ_of_lt hlength, hreceive, hnul⟩
          · exact .inr hnone
      | chunk first rest =>
          have hsize := size_chunk buffer first rest
          rw [receive_chunk hsmall, receive_of_le (by omega)]
          exact .inl ⟨first, rest, later, Nat.lt_succ_self _, rfl, rfl⟩

/-- The buffer after another piece of its source. -/
def extended (b : ReplayBuffer) (source : Source) (first : UInt8) (rest : List UInt8) (later : List Delivery) :
    ReplayBuffer :=
  { b with buffer := b.buffer.push first ++ rest, source := some { source with deliveries := later } }

section

variable {source : Source} {first : UInt8} {rest : List UInt8} {deliveries later : List Delivery}

theorem kept_extended (hcursor : b.cursor ≤ b.buffer.size) :
    (extended b source first rest later).kept = b.kept ++ first :: rest := by
  rw [kept, extended, toList_chunk, List.drop_append_of_le_length (by simpa using hcursor)]
  rfl

theorem nulIndex?_of_mem (h : 0 ∈ b.kept) : (nulIndex? b.buffer b.available b.cursor).isNone = false := by
  obtain ⟨name, rest, hkept, hname⟩ := List.eq_append_cons_of_mem h
  have hcount : name.length < b.available := by
    rw [← Live.length_kept, hkept, List.length_append, List.length_cons]
    omega
  rw [nulIndex?_of_drop hkept hname hcount]
  rfl

/-- Where the kept bytes have no NUL, it does not matter whether another piece has been asked for before. -/
theorem cstring_run_extended (hcursor : b.cursor ≤ b.buffer.size) (hsource : b.source = some source)
    (hnone : 0 ∉ b.kept)
    (hnul : receiveNul source.deliveries b.buffer =
      if first = 0 ∨ rest.contains 0 then (b.buffer.push first ++ rest, later)
      else receiveNul later (b.buffer.push first ++ rest)) :
    Replay.cstring.run.run b = Replay.cstring.run.run (extended b source first rest later) := by
  have hkept : (extended b source first rest later).kept = b.kept ++ first :: rest := kept_extended hcursor
  rw [Replay.cstring_run hsource, Replay.cstring_run rfl, nulIndex?_eq_none hnone, hnul]
  by_cases hzero : first = 0 ∨ rest.contains 0
  · have hmem : 0 ∈ (extended b source first rest later).kept := by
      rw [hkept]
      exact List.mem_append_right _ (by simpa [eq_comm] using hzero)
    rw [nulIndex?_of_mem hmem, if_pos hzero]
    rfl
  · have hmissing : 0 ∉ (extended b source first rest later).kept := by
      rw [hkept]
      simpa [hnone, eq_comm] using hzero
    rw [nulIndex?_eq_none hmissing, if_neg hzero]
    rfl

/-- Asking for one byte more than there are brings the next piece of the source. -/
theorem fill_run_extended (hcursor : b.cursor ≤ b.buffer.size) (hsource : b.source = some source)
    (hreceive : ReplayBuffer.receive (b.buffer.size + 1) source.deliveries b.buffer =
      (b.buffer.push first ++ rest, later)) :
    (Replay.fill (b.available + 1)).run.run b = (.ok true, extended b source first rest later) := by
  have htarget := cursor_add_succ_available hcursor
  have henough : b.buffer.size + 1 ≤ (b.buffer.push first ++ rest).size := by
    have hsize := size_chunk b.buffer first rest
    omega
  simp only [Replay.fill, run_bind, run_get, hsource, htarget, hreceive, run_set, if_pos henough, run_pure]
  rfl

/-- Where nothing comes any more, asking for a byte and looking for a NUL fail alike. -/
theorem exhausted_run (hb : Window feed b) (hsource : b.source = some ⟨deliveries, feed.ending⟩) (hnone : 0 ∉ b.kept)
    (hreceive : ReplayBuffer.receive (b.buffer.size + 1) deliveries b.buffer = (b.buffer, []))
    (hnul : receiveNul deliveries b.buffer = (b.buffer, [])) (found : Checked ReplayBuffer (List UInt8)) :
    (fill (b.available + 1) >>= fun filled => if filled then found else liftM Replay.outOfBytes).run.run b =
      some (Replay.cstring.run.run b) := by
  have htarget := cursor_add_succ_available hb.cursor_le
  have hshort : ¬b.buffer.size + 1 ≤ b.buffer.size := Nat.not_succ_le_self _
  have hmissing : nulIndex? b.buffer b.available b.cursor = none := nulIndex?_eq_none hnone
  have hfill := (exact_fill (b.available + 1) feed b hb).1
  simp only [Replay.fill, run_bind, run_get, hsource, htarget, hreceive, run_set, if_neg hshort] at hfill
  rw [Replay.cstring_run hsource, hmissing, hnul]
  rw [ReplayBuffer.available] at hmissing
  cases hending : feed.ending with
  | ends =>
      rw [hending] at hfill
      rw [run_bind_ok hfill]
      simp only [Option.isNone_none, reduceIte, Replay.keptCstring, ReplayBuffer.available, run_bind, run_get, hmissing,
        Replay.checkEnding, run_pure]
      rfl
  | fails message =>
      rw [hending] at hfill
      rw [run_bind_error hfill]
      simp only [Option.isNone_none, reduceIte, Replay.keptCstring, ReplayBuffer.available, run_bind, run_get, hmissing,
        Replay.checkEnding, run_throw]

end

theorem toList_slice_size (buffer : Array UInt8) (start : Nat) :
    (buffer.extract start buffer.size).toList = buffer.toList.drop start := by
  rw [Array.toList_extract, List.extract_eq_take_drop]
  exact List.take_of_length_le (by simp)

theorem idxOf?_append_zero {name : List UInt8} (hname : 0 ∉ name) (rest : List UInt8) :
    (name ++ 0 :: rest).idxOf? 0 = some name.length := by
  induction name with
  | nil => rfl
  | cons b name ih =>
      rw [List.mem_cons, not_or] at hname
      rw [List.cons_append, List.idxOf?_cons, ih hname.2, if_neg (by simpa using Ne.symm hname.1)]
      rfl

/-- The text up to the first NUL is taken from the kept bytes. -/
theorem cstring_run_kept {scanned : Nat} {found rest : List UInt8} (hsource : b.source.isSome = true)
    (hscanned : b.cursor + scanned ≤ b.buffer.size) (hnone : 0 ∉ b.kept.take scanned)
    (hkept : b.kept.drop scanned = found ++ 0 :: rest) (hfound : 0 ∉ found) :
    ∃ name, slice b.buffer b.cursor (b.cursor + scanned + found.length) = some name ∧
      Replay.cstring.run.run b = (.ok name.toList, { b with cursor := b.cursor + scanned + found.length + 1 }) := by
  obtain ⟨source, hsource⟩ := Option.isSome_iff_exists.1 hsource
  have hlength : b.kept.length = b.available := Live.length_kept
  rw [ReplayBuffer.available] at hlength
  have hsplit : b.kept = (b.kept.take scanned ++ found) ++ 0 :: rest := by
    rw [List.append_assoc, ← hkept, List.take_append_drop]
  have hname : 0 ∉ b.kept.take scanned ++ found := List.not_mem_append hnone hfound
  have hcount : (b.kept.take scanned ++ found).length = scanned + found.length := by
    rw [List.length_append, List.length_take]
    omega
  have hstop : b.cursor + scanned + found.length ≤ b.buffer.size := by
    have hall := congrArg List.length hsplit
    rw [List.length_append, hcount, List.length_cons] at hall
    omega
  have htext : (b.buffer.extract b.cursor (b.cursor + scanned + found.length)).toList =
      b.kept.take scanned ++ found := by
    rw [Array.toList_extract, List.extract_eq_take_drop, Nat.add_assoc, Nat.add_sub_cancel_left, ← kept]
    exact (congrArg (List.take _) hsplit).trans (List.take_left' hcount)
  have hmem : 0 ∈ b.kept := by
    rw [hsplit]
    exact List.mem_append_right _ List.mem_cons_self
  have hrun := Replay.keptCstring_run hsplit hname
  rw [List.length_append, hcount, List.length_singleton] at hrun
  refine ⟨_, slice_eq ⟨by omega, hstop⟩, ?_⟩
  rw [Replay.cstring_run hsource, nulIndex?_of_mem hmem, htext]
  simpa [Nat.add_assoc] using hrun

/-- Piece by piece the text up to a NUL is found like at once, in no more rounds than there are deliveries. -/
theorem scan_run {rounds scanned : Nat} {deliveries : List Delivery} (hb : Window feed b)
    (hsource : b.source = some ⟨deliveries, feed.ending⟩) (hrounds : deliveries.length < rounds)
    (hscanned : b.cursor + scanned ≤ b.buffer.size) (hnone : 0 ∉ b.kept.take scanned) :
    (scan rounds scanned).run.run b = some (Replay.cstring.run.run b) := by
  induction rounds generalizing b scanned deliveries with
  | zero => exact absurd hrounds (Nat.not_lt_zero _)
  | succ rounds ih =>
      have hcursor := hb.cursor_le
      have hlength : b.kept.length = b.available := Live.length_kept
      have hkept : (b.buffer.extract (b.cursor + scanned) b.buffer.size).toList = b.kept.drop scanned := by
        rw [toList_slice_size, kept, List.drop_drop]
      rw [scan, run_get_bind, run_some_bind (slice_eq ⟨hscanned, Nat.le_refl _⟩), hkept]
      by_cases hzero : 0 ∈ b.kept.drop scanned
      · obtain ⟨found, rest, hsplit, hfound⟩ := List.eq_append_cons_of_mem hzero
        obtain ⟨name, hname, hrun⟩ := cstring_run_kept (by rw [hsource]; rfl) hscanned hnone hsplit hfound
        rw [hsplit, idxOf?_append_zero hfound, hrun]
        dsimp only
        rw [run_some_bind hname]
        rfl
      · have hmissing : 0 ∉ b.kept := by
          rw [← List.take_append_drop scanned b.kept]
          exact List.not_mem_append hnone hzero
        rw [List.idxOf?_eq_none_iff.2 hzero]
        dsimp only
        rw [run_some_bind (available_eq hcursor)]
        rcases receive_next b.buffer deliveries with ⟨first, rest, later, hlater, hreceive, hnul⟩ | ⟨hreceive, hnul⟩
        · have hsize := size_chunk b.buffer first rest
          obtain ⟨hfill, hwindow⟩ := exact_fill (b.available + 1) feed b hb
          rw [fill_run_extended hcursor hsource hreceive] at hfill hwindow
          rw [run_bind_ok hfill, cstring_run_extended hcursor hsource hmissing hnul]
          -- what has been scanned is all that was kept before the piece came
          refine ih hwindow rfl (Nat.lt_of_lt_of_le hlater (Nat.le_of_lt_succ hrounds)) ?_ ?_
          · rw [ReplayBuffer.available]
            simp only [extended]
            omega
          · rwa [kept_extended hcursor, ← hlength, List.take_left]
        · exact exhausted_run hb hsource hmissing hreceive hnul _

/-- A step on a buffer leads to a buffer over the same source, and never back. -/
theorem window_of_steady {y : Replay α} (hy : y.Steady) (hb : Window feed b) :
    Window feed (y.run.run b).2 ∧ b.position ≤ (y.run.run b).2.position := by
  obtain ⟨result, next, hnext, hsettles⟩ := hy.settles feed b.position
  obtain ⟨b', hrun, hreaches⟩ := hsettles b hb rfl
  rw [hrun]
  exact ⟨hreaches.window, hreaches.position_eq ▸ hnext⟩

theorem exact_cstring : Exact Window cstring Replay.cstring := by
  intro feed b hb
  obtain ⟨deliveries, hsource, -⟩ := hb.source_eq
  refine ⟨?_, (window_of_steady Replay.steady_cstring hb).1⟩
  rw [cstring, run_get_bind, hsource]
  exact scan_run hb hsource (Nat.lt_succ_self _) hb.cursor_le List.not_mem_nil

/-! ## Going back and forgetting -/

theorem rewind_eq (b : ReplayBuffer) (position : Nat) : rewind b position = some (b.rewind? position) := by
  rw [rewind, rewind?]
  by_cases hkept : position < b.base ∨ b.frontier < position
  · rw [if_pos hkept, if_pos hkept]
    rfl
  · rw [if_neg hkept, if_neg hkept, Nat.psub_eq_sub (by omega)]
    rfl

theorem compact_eq (hb : Window feed b) : compact b = some b.compact := by
  have hbase : b.base ≤ b.oldest := le_oldest_iff.2 ⟨Nat.le_add_right _ _, fun pin hpin => (hb.pinned pin hpin).1⟩
  have hposition := oldest_le b
  have hcursor := hb.cursor_le
  rw [position] at hposition
  rw [compact, Nat.psub_eq_sub hbase]
  simp only [Option.bind_eq_bind, Option.bind_some]
  rw [slice_eq ⟨by omega, Nat.le_refl _⟩, Nat.psub_eq_sub (by omega)]
  rfl

end Checked

end Aggregation.Wire
