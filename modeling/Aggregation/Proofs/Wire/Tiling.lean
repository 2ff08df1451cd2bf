import Aggregation.Proofs.Wire.Values
import Aggregation.Proofs.Wire.Streams
import Mathlib.Algebra.Group.Nat.Defs
import Mathlib.Algebra.GroupWithZero.Nat

/-! How a stream of documents is divided. Every document that is read lies where the one before it ended and is as long
as its first four bytes say, so that there are few of them; a stream that stops without an error stops at the end of
its bytes, and one that has stopped says the same for ever. -/

namespace Aggregation.Wire

open Stepping Layout Read Reader

variable {l : Limits} {feed : Feed}

/-- The bytes of a document say how many they are. -/
theorem IsDocumentForm.declaredLength_eq (hl : l.maxDocumentSize < 2147483648) {d : Document} {bytes : List UInt8}
    (h : IsDocumentForm l d bytes) : declaredLength (bytes.take 4) = bytes.length ∧ 5 ≤ bytes.length := by
  obtain ⟨-, -, body, -, rfl, hbounds⟩ := h
  have hword := length_littleEndianBytes 4 ((body ++ [0]).length + 4)
  have htake : (container body).take 4 = littleEndianBytes 4 ((body ++ [0]).length + 4) := List.take_left' hword
  have hsized : littleEndianBytes 4 ((body ++ [0]).length + 4) ++ (body ++ [0]) = sized (body ++ [0]) := rfl
  obtain ⟨-, hlength⟩ := (declaredLength_eq_iff hl).2 ⟨hsized, hword, hbounds⟩
  rw [htake, length_container]
  refine ⟨?_, Nat.le_add_left _ _⟩
  rw [hlength, ← length_container]
  rfl

namespace ReplayBuffer

/-- What is unread is what the feed has from the position on. -/
theorem Window.unread_eq {b : ReplayBuffer} (h : b.Window feed) (hlive : b.Live) :
    b.unread = feed.bytes.drop b.position := by
  obtain ⟨deliveries, hsource, -⟩ := h.source_eq
  rw [hlive.unread_eq hsource]
  exact h.kept_append hsource

end ReplayBuffer

theorem Reader.Idle.state_ne {r : Reader} (h : r.Idle l) : r.state ≠ .closed := by
  obtain ⟨state, hstate, hat⟩ := h
  rw [hat.state_eq]
  rcases hstate with rfl | rfl <;> decide

namespace DocumentStream

variable {s s' : DocumentStream} {d : Document} {p : Nat}

/-- The next document, where documents are read in a given way. -/
def nextBy (read : Read Document) (s : DocumentStream) : Option Document × DocumentStream :=
  if s.isFinished then (none, s)
  else
    match isAtEnd.run.run s.reader with
    | (.ok true, reader) => (none, { s with reader }.finish none)
    | (.error e, reader) => (none, { s with reader }.finish (some e))
    | (.ok false, reader) =>
      match read.run.run reader with
      | (.ok d, reader) => (some d, { s with reader })
      | (.error e, reader) => (none, { s with reader }.finish (some e))

theorem next_eq_nextBy (s : DocumentStream) : s.next = s.nextBy readDocument := rfl

/-- The stream after a number of calls. -/
def called (s : DocumentStream) (count : Nat) : DocumentStream := (fun s => s.next.2)^[count] s

theorem called_succ (s : DocumentStream) (count : Nat) : s.called (count + 1) = (s.called count).next.2 :=
  Function.iterate_succ_apply' _ _ _

theorem called_succ_of_next {given : Option Document} (h : s.next = (given, s')) (count : Nat) :
    s.called (count + 1) = s'.called count := by
  rw [called, Function.iterate_succ_apply, h]
  rfl

theorem called_add (s : DocumentStream) (m n : Nat) : s.called (m + n) = (s.called n).called m :=
  Function.iterate_add_apply _ _ _ _

theorem next_of_isFinished (h : s.isFinished = true) : s.next = (none, s) := if_pos h

/-- A stream that has ended stays as it is. -/
theorem called_of_isFinished (h : s.isFinished = true) (count : Nat) : s.called count = s := by
  induction count with
  | zero => rfl
  | succ count ih => rw [called_succ, ih, next_of_isFinished h]

theorem isFinished_of_next (h : s.next = (none, s')) : s'.isFinished = true := by
  rw [next] at h
  split at h
  · next hfinished =>
      cases h
      exact hfinished
  · split at h
    · cases h
      rfl
    · cases h
      rfl
    · split at h
      · cases h
      · cases h
        rfl

/-- A document is given after a look for the end by reading it. -/
theorem exists_of_next (h : s.next = (some d, s')) : ∃ r r', isAtEnd.run.run s.reader = (.ok false, r) ∧
    readDocument.run.run r = (.ok d, r') ∧ s' = { s with reader := r' } := by
  rw [next] at h
  split at h
  · cases h
  · split at h
    · cases h
    · cases h
    · next r hend =>
        split at h
        · next r' hread =>
            cases h
            exact ⟨r, r', hend, hread, rfl⟩
        · cases h

/-- A stream that has not ended, at a position of its feed. -/
structure StandsAt (l : Limits) (feed : Feed) (p : Nat) (s : DocumentStream) : Prop where
  running : s.Running l
  window : s.reader.input.Window feed
  position_eq : s.reader.position = p

theorem standsAt_ofSource {source : Source} (hending : source.ending = .ends) (l : Limits) :
    (ofSource source l).StandsAt l source.feed 0 :=
  ⟨⟨idle_ofSource hending l 0, rfl, rfl⟩, ReplayBuffer.window_of_source source, rfl⟩

theorem StandsAt.unread_eq (h : s.StandsAt l feed p) : s.reader.input.unread = feed.bytes.drop p := by
  obtain ⟨_, _, hat⟩ := h.running.idle
  rw [h.window.unread_eq hat.live]
  exact congrArg feed.bytes.drop h.position_eq

theorem StandsAt.le_length (h : s.StandsAt l feed p) : p ≤ feed.bytes.length :=
  h.position_eq ▸ h.window.position_le

/-- A look for the end and reading a document leave the reader over its feed. -/
theorem StandsAt.window_of_next (h : s.StandsAt l feed p) (hnext : s.next = (some d, s')) :
    s'.reader.input.Window feed := by
  obtain ⟨r, r', hend, hread, rfl⟩ := exists_of_next hnext
  have hpast := steady_isAtEnd.spends feed _ _ _ h.window h.running.idle.state_ne hend
  exact (local_readDocument.steady.spends feed _ _ _ hpast.window hpast.state_ne hread).window

/-- A stream that has not ended gives a document that begins where it stands, or it ends. -/
theorem StandsAt.step (hl : l.maxDocumentSize < 2147483648) (h : s.StandsAt l feed p) :
    (∃ d s' length, s.next = (some d, s') ∧ IsDocumentForm l d ((feed.bytes.drop p).take length) ∧
        p + length ≤ feed.bytes.length ∧ s'.StandsAt l feed (p + length)) ∨
      ∃ s', s.next = (none, s') ∧ (s'.error = none ↔ p = feed.bytes.length) := by
  have hunread := h.unread_eq
  have hle := h.le_length
  by_cases hnil : s.reader.input.unread = []
  · obtain ⟨s', hnext, herror⟩ := next_of_nil h.running hnil
    rw [hunread, List.drop_eq_nil_iff] at hnil
    exact .inr ⟨s', hnext, fun _ => Nat.le_antisymm hle hnil, fun _ => herror⟩
  · rcases next_of_ne_nil hl h.running hnil with ⟨d, bytes, s', hnext, hform, hadvances, hrunning⟩ |
      ⟨⟨s', e, hnext, herror⟩, -⟩
    · have hbytes : feed.bytes.drop p = bytes ++ s'.reader.input.unread := hunread.symm.trans hadvances.unread_eq
      have htake : (feed.bytes.drop p).take bytes.length = bytes := by rw [hbytes, List.take_left]
      have hlength := congrArg List.length hbytes
      rw [List.length_drop, List.length_append] at hlength
      refine .inl ⟨d, s', bytes.length, hnext, htake.symm ▸ hform, by omega, hrunning, h.window_of_next hnext, ?_⟩
      rw [← h.position_eq]
      exact hadvances.position_eq
    · refine .inr ⟨s', hnext, fun hnone => ?_, fun hp => ?_⟩
      · rw [herror] at hnone
        cases hnone
      · rw [hunread, hp, List.drop_length] at hnil
        exact absurd rfl hnil

/-- Where the bytes that are left begin with a form of a document, it is given. -/
theorem StandsAt.next_of_form (hl : l.maxDocumentSize < 2147483648) (h : s.StandsAt l feed p) {bytes later : List UInt8}
    (hform : IsDocumentForm l d bytes) (hbytes : feed.bytes.drop p = bytes ++ later) :
    ∃ s', s.next = (some d, s') ∧ s'.StandsAt l feed (p + bytes.length) := by
  have hunread := h.unread_eq.trans hbytes
  have hne : s.reader.input.unread ≠ [] := by
    rw [hunread]
    exact List.append_ne_nil_of_left_ne_nil hform.ne_nil _
  rcases next_of_ne_nil hl h.running hne with ⟨d', bytes', s', hnext, hform', hadvances, hrunning⟩ | ⟨-, hnone⟩
  · have hconsumes := readDocument_consumes hl h.running.idle (s.reader.input.unread.length + 1)
    obtain ⟨rfl, rfl⟩ := hconsumes.unique hform' hform (Nat.lt_succ_self _) hadvances.unread_eq hunread
    refine ⟨s', hnext, hrunning, h.window_of_next hnext, ?_⟩
    rw [← h.position_eq]
    exact hadvances.position_eq
  · exact absurd hunread (hnone d bytes later hform)

/-- What a stream does from a position on: it gives documents of these lengths and ends. -/
inductive Tiles (l : Limits) (feed : Feed) : DocumentStream → Nat → List Nat → Prop where
  | ends {s s' : DocumentStream} {p : Nat} (stands : s.StandsAt l feed p) (next_eq : s.next = (none, s'))
    (error_iff : s'.error = none ↔ p = feed.bytes.length) : Tiles l feed s p []
  | gives {s s' : DocumentStream} {p length : Nat} {d : Document} {rest : List Nat} (stands : s.StandsAt l feed p)
    (next_eq : s.next = (some d, s')) (form : IsDocumentForm l d ((feed.bytes.drop p).take length))
    (le_length : p + length ≤ feed.bytes.length) (rest_tiles : Tiles l feed s' (p + length) rest) :
    Tiles l feed s p (length :: rest)

variable {lengths : List Nat}

theorem Tiles.stands (h : Tiles l feed s p lengths) : s.StandsAt l feed p := by
  cases h with
  | ends hstands => exact hstands
  | gives hstands => exact hstands

theorem StandsAt.exists_tiles (hl : l.maxDocumentSize < 2147483648) (h : s.StandsAt l feed p) :
    ∃ lengths, Tiles l feed s p lengths := by
  -- every document takes bytes, so fewer and fewer are left
  induction hleft : feed.bytes.length - p using Nat.strong_induction_on generalizing s p with
  | h left ih =>
      rcases h.step hl with ⟨d, s', length, hnext, hform, hle, hstands⟩ | ⟨s', hnext, herror⟩
      · have hpositive := (hform.declaredLength_eq hl).2
        rw [List.length_take] at hpositive
        obtain ⟨rest, hrest⟩ := ih (feed.bytes.length - (p + length)) (by omega) hstands rfl
        exact ⟨length :: rest, .gives h hnext hform hle hrest⟩
      · exact ⟨[], .ends h hnext herror⟩

/-- After some of its documents a stream gives the others. -/
theorem Tiles.called (h : Tiles l feed s p lengths) {k : Nat} (hk : k ≤ lengths.length) :
    Tiles l feed (s.called k) (p + (lengths.take k).sum) (lengths.drop k) := by
  induction h generalizing k with
  | ends hstands hnext herror =>
      obtain rfl : k = 0 := Nat.le_zero.1 hk
      exact .ends hstands hnext herror
  | @gives s s' p length d rest hstands hnext hform hle hrest ih =>
      cases k with
      | zero => exact .gives hstands hnext hform hle hrest
      | succ k =>
          rw [called_succ_of_next hnext, List.take_succ_cons, List.sum_cons, ← Nat.add_assoc, List.drop_succ_cons]
          exact ih (Nat.le_of_succ_le_succ hk)

theorem Tiles.five_mul_length_le (hl : l.maxDocumentSize < 2147483648) (h : Tiles l feed s p lengths) :
    p + 5 * lengths.length ≤ feed.bytes.length := by
  induction h with
  | ends hstands => exact hstands.le_length
  | gives _ _ hform hle _ ih =>
      have hfive := (hform.declaredLength_eq hl).2
      rw [List.length_take] at hfive
      rw [List.length_cons]
      omega

/-- With documents read by loops that are unrolled often enough, whatever stands at the bottom, a call is the same. -/
theorem StandsAt.nextBy_eq (h : s.StandsAt l feed p) {count : Nat} (hcount : s.reader.supply < count) (rest : Loops) :
    s.nextBy (Loops.unrolled^[count] rest).document = s.next := by
  rw [next_eq_nextBy, nextBy, nextBy]
  split
  · rfl
  · split
    · rfl
    · rfl
    · next r hend =>
        have hpast := steady_isAtEnd.spends feed _ _ _ h.window h.running.idle.state_ne hend
        have hsupply := hpast.supply_add_le h.window
        rw [readDocument_run_eq hpast.window hpast.state_ne (by omega) rest]

/-- A document that is given begins where the stream stands and ends where the stream stands then. -/
theorem Tiles.head (hl : l.maxDocumentSize < 2147483648) {length : Nat}
    (h : Tiles l feed s p (length :: lengths)) :
    (∃ d, s.next.1 = some d ∧ IsDocumentForm l d ((feed.bytes.drop p).take length)) ∧ s.reader.position = p ∧
      s.next.2.reader.position = p + length ∧ declaredLength ((feed.bytes.drop p).take 4) = length := by
  obtain _ | ⟨hstands, hnext, hform, hle, hrest⟩ := h
  obtain ⟨hdeclared, hfive⟩ := hform.declaredLength_eq hl
  have hlength : ((feed.bytes.drop p).take length).length = length := by
    rw [List.length_take, List.length_drop]
    omega
  rw [hlength] at hdeclared hfive
  rw [List.take_take, Nat.min_eq_left (by omega)] at hdeclared
  rw [hnext]
  exact ⟨⟨_, rfl, hform⟩, hstands.position_eq, hrest.stands.position_eq, hdeclared⟩

/-- Under any limits, the documents of a source that ends are few, and each of them lies where the one before it ended
and is as long as it declares. After the last one nothing more is given, and the stream stays as it is then, with its
error if it has one; if it has none, the documents are all there is. No call needs a bound: loops that are unrolled more
often than there are bytes give the same, whatever stands at the bottom. -/
theorem next_tiles (size : Int32) (nesting : Nat) (source : Source) (hending : source.ending = .ends) :
    let l := Limits.ofWord size nesting
    let s := (DocumentStream.ofSource source l).called
    ∃ lengths : List Nat, lengths.length ≤ source.content.length / 5 ∧
      (∀ k (hk : k < lengths.length),
        let start := (lengths.take k).sum
        (∃ d, (s k).next.1 = some d ∧ IsDocumentForm l d ((source.content.drop start).take lengths[k])) ∧
          (s k).reader.position = start ∧ (s (k + 1)).reader.position = start + lengths[k] ∧
          declaredLength ((source.content.drop start).take 4) = lengths[k]) ∧
      (∀ k, lengths.length ≤ k → (s k).next.1 = none ∧ s (k + 1) = s (lengths.length + 1)) ∧
      ((s (lengths.length + 1)).error = none ↔ lengths.sum = source.content.length) ∧
      ∀ k count rest, (s k).reader.supply < count →
        (s k).nextBy (Loops.unrolled^[count] rest).document = (s k).next := by
  intro l s
  have hl : l.maxDocumentSize < 2147483648 := Limits.ofWord_lt size nesting
  obtain ⟨lengths, htiles⟩ := (standsAt_ofSource hending l).exists_tiles hl
  have hat {k : Nat} (hk : k ≤ lengths.length) : Tiles l source.feed (s k) (lengths.take k).sum (lengths.drop k) := by
    have htiles := htiles.called hk
    rwa [Nat.zero_add] at htiles
  obtain ⟨s', hnext, herror⟩ : ∃ s', (s lengths.length).next = (none, s') ∧
      (s'.error = none ↔ lengths.sum = source.content.length) := by
    have hlast := hat (Nat.le_refl lengths.length)
    rw [List.drop_length, List.take_length] at hlast
    obtain ⟨-, hnext, herror⟩ := hlast
    exact ⟨_, hnext, herror⟩
  have hfinished := isFinished_of_next hnext
  have hafter (k : Nat) (hk : lengths.length < k) : s k = s' := by
    obtain ⟨j, rfl⟩ := Nat.exists_eq_add_of_le' hk
    have hfirst : s (lengths.length + 1) = s' := (called_succ _ _).trans (congrArg Prod.snd hnext)
    exact (called_add _ _ _).trans
      ((congrArg (DocumentStream.called · j) hfirst).trans (called_of_isFinished hfinished j))
  refine ⟨lengths, ?_, fun k hk => ?_, fun k hk => ⟨?_, ?_⟩, ?_, fun k count rest hcount => ?_⟩
  · have hfive := htiles.five_mul_length_le hl
    rw [Nat.le_div_iff_mul_le (by decide)]
    rw [Nat.zero_add, Nat.mul_comm] at hfive
    exact hfive
  · have htiles := hat (Nat.le_of_lt hk)
    rw [List.drop_eq_getElem_cons hk] at htiles
    obtain ⟨hgiven, hstart, hstop, hdeclared⟩ := htiles.head hl
    exact ⟨hgiven, hstart, (congrArg (·.reader.position) (called_succ _ k)).trans hstop, hdeclared⟩
  · rcases Nat.eq_or_lt_of_le hk with rfl | hlt
    · rw [hnext]
    · rw [hafter k hlt, next_of_isFinished hfinished]
  · rw [hafter _ (Nat.lt_succ_of_le hk), hafter _ (Nat.lt_succ_self _)]
  · rw [hafter _ (Nat.lt_succ_self _)]
    exact herror
  · rcases Nat.lt_or_ge lengths.length k with hlt | hle
    · rw [hafter k hlt, next_of_isFinished hfinished]
      exact if_pos hfinished
    · exact (hat hle).stands.nextBy_eq hcount rest

/-- Two documents of twelve bytes and three bytes of a third, handed out byte by byte with interruptions. -/
theorem next_tiles_cut :
    let d : Document := ⟨[("a", .int32 7)]⟩
    let source : Source := .ofBytes (document d ++ document d ++ [5, 0, 0]) 1 none true
    let s := (DocumentStream.ofSource source (.ofWord 100 3)).called
    source.ending = .ends ∧ ∃ lengths : List Nat, lengths.length = 2 ∧
      (∀ k (hk : k < lengths.length), (s (k + 1)).reader.position = (lengths.take k).sum + lengths[k]) ∧
      (s 3).error.isSome = true ∧ lengths.sum ≠ 27 ∧ ∀ k, 2 ≤ k → s (k + 1) = s 3 := by
  intro d source s
  obtain ⟨hcontent, hending⟩ := Source.content_ofBytes (document d ++ document d ++ [5, 0, 0]) Nat.one_pos true
  obtain ⟨lengths, -, hgiven, hafter, herror, -⟩ := next_tiles 100 3 source hending
  have hsecond : (s 1).next.1.isSome = true := by decide +kernel
  have hthird : (s 2).next.1.isNone = true := by decide +kernel
  have hstops : (s 3).error.isSome = true := by decide +kernel
  have hlength : lengths.length = 2 := by
    rcases Nat.lt_trichotomy lengths.length 2 with hlt | heq | hgt
    · rw [(hafter 1 (Nat.le_of_lt_succ hlt)).1] at hsecond
      cases hsecond
    · exact heq
    · obtain ⟨⟨_, hsome, -⟩, -⟩ := hgiven 2 hgt
      rw [hsome] at hthird
      cases hthird
  have hlast : lengths.length + 1 = 3 := congrArg (· + 1) hlength
  rw [hlast, hcontent] at herror
  refine ⟨hending, lengths, hlength, fun k hk => (hgiven k hk).2.2.1, hstops, fun hsum => ?_, fun k hk => ?_⟩
  · rw [herror.2 hsum] at hstops
    cases hstops
  · exact hlast ▸ (hafter k (hlength ▸ hk)).2

end DocumentStream

end Aggregation.Wire
