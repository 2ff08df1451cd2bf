import Aggregation.Proofs.Wire.RelatedSteps

/-! How many bytes a step takes. No step goes back, and names and containers take some bytes in any case. -/

namespace Aggregation.Wire

open Stepping

namespace Replay

variable {feed : Feed} {b b' : ReplayBuffer}

theorem le_position_of_cstring_run {name : List UInt8} (h : b.Window feed) (hrun : cstring.run.run b = (.ok name, b')) :
    b.position + 1 ≤ b'.position := by
  by_cases hmem : 0 ∈ feed.bytes.drop b.position
  · obtain ⟨name', rest, hbytes, hname⟩ := List.eq_append_cons_of_mem hmem
    obtain ⟨b'', hrun', hreaches⟩ := settles_cstring_of_nul hbytes hname b h rfl
    cases hrun.symm.trans hrun'
    rw [hreaches.position_eq, List.length_append, List.length_singleton]
    omega
  · obtain ⟨b'', hrun', -⟩ := settles_cstring_of_not_mem hmem b h rfl
    cases hrun.symm.trans hrun'

theorem position_of_bytes_run {count : Nat} {given : List UInt8} (h : b.Window feed)
    (hrun : (bytes count).run.run b = (.ok given, b')) : b'.position = b.position + count := by
  rcases Nat.lt_or_ge feed.bytes.length (b.position + count) with hlt | hle
  · obtain ⟨b'', hrun', -⟩ := settles_demand_of_lt _ hlt b h rfl
    cases hrun.symm.trans hrun'
  · obtain ⟨b'', hrun', hreaches⟩ := settles_bytes_of_le hle b h rfl
    cases hrun.symm.trans hrun'
    exact hreaches.position_eq

theorem position_of_int32_run {n : Int32} (h : b.Window feed) (hrun : int32.run.run b = (.ok n, b')) :
    b'.position = b.position + 4 := by
  obtain ⟨m, b₁, hnatural, hn⟩ := exists_of_run_bind hrun
  obtain ⟨given, b₂, hbytes, hm⟩ := exists_of_run_bind hnatural
  cases hn
  cases hm
  exact position_of_bytes_run h hbytes

end Replay

namespace Reader

/-- The same open reader twice, over a feed, at a position or after it. -/
structure Past (feed : Feed) (position : Nat) (r q : Reader) : Prop where
  eq : r = q
  window : r.input.Window feed
  state_ne : r.state ≠ .closed
  le_position : position ≤ r.position

variable {feed : Feed} {r q : Reader} {p : Nat}

/-- No step goes back. -/
theorem blind_past (feed : Feed) (p : Nat) : Blind (Past feed p) where
  alike := by
    rintro r q ⟨rfl, -, -, -⟩
    exact ⟨rfl, rfl, rfl⟩
  state_ne h := h.state_ne
  left h := ⟨feed, h.window⟩
  right := by
    rintro r q ⟨rfl, hwindow, -, -⟩
    exact ⟨feed, hwindow⟩
  onInput := by
    rintro α step hstep r q ⟨rfl, hwindow, hstate, hle⟩
    obtain ⟨result, next, hnext, hsettles⟩ := hstep.settles feed r.position
    obtain ⟨b, hrun, hreaches⟩ := hsettles r.input hwindow rfl
    refine ⟨rfl, rfl, ?_, hstate, ?_⟩
    · rw [Read.onInput_run, hrun]
      exact hreaches.window
    · rw [Read.onInput_run, hrun, position, hreaches.position_eq]
      exact Nat.le_trans hle hnext
  shows := by
    rintro r q ⟨rfl, hwindow, -, hle⟩ state hstate type name frames
    exact ⟨rfl, hwindow, hstate, hle⟩
  record := by
    rintro r q ⟨rfl, hwindow, hstate, hle⟩ entry
    exact ⟨rfl, hwindow, hstate, hle⟩
  compact := by
    rintro r q ⟨rfl, hwindow, hstate, hle⟩
    have hreaches := hwindow.reaches_compact
    refine ⟨rfl, hreaches.window, hstate, ?_⟩
    rw [position, hreaches.position_eq]
    exact hle

theorem past_self (hwindow : r.input.Window feed) (hstate : r.state ≠ .closed) : Past feed r.position r r :=
  ⟨rfl, hwindow, hstate, Nat.le_refl _⟩

theorem supply_add_le {count : Nat} {r' : Reader} (hwindow : r.input.Window feed) (hwindow' : r'.input.Window feed)
    (hle : r.position + count ≤ r'.position) : r'.supply + count ≤ r.supply := by
  have hend := hwindow'.position_le
  rw [supply, supply, hwindow.supply_eq, hwindow'.supply_eq]
  rw [position, position] at hle
  omega

theorem Past.supply_add_le {count : Nat} {r' : Reader} (h : Past feed (r.position + count) r' r')
    (hwindow : r.input.Window feed) : r'.supply + count ≤ r.supply :=
  Reader.supply_add_le hwindow h.window h.le_position

end Reader

namespace Read

open Reader

variable {α β : Type} {x : Read α} {f : α → Read β} {count : Nat}

/-- A step that does not go back. -/
def Advances (x : Read α) : Prop :=
  ∀ feed p r, Past feed p r r → Past feed p (x.run.run r).2 (x.run.run r).2

theorem Steady.advances (hx : Steady x) : Advances x := fun feed p _ h => (hx.matches (blind_past feed p) h).2

theorem Local.advances (hx : Local x) : Advances x := hx.steady.advances

theorem Advances.bind (hx : Advances x) (hf : ∀ a, Advances (f a)) : Advances (x >>= f) := by
  intro feed p r h
  have hfirst := hx feed p r h
  rcases hrun : x.run.run r with ⟨e | a, s⟩
  · rw [run_bind_error hrun]
    rwa [hrun] at hfirst
  · rw [run_bind_ok hrun]
    rw [hrun] at hfirst
    exact hf a feed p s hfirst

theorem Advances.bind_pure (hx : Advances x) (k : α → β) : Advances (do return k (← x)) :=
  hx.bind fun a => (local_pure (k a)).advances

theorem advances_get_bind {f : Reader → Read β} (hf : ∀ r, Advances (f r)) : Advances (get >>= f) :=
  fun feed p r => hf r feed p r

/-- What does not touch the input, and does not close the reader. -/
theorem advances_modify {f : Reader → Reader} (hinput : ∀ r, (f r).input = r.input)
    (hopen : ∀ r, r.state ≠ .closed → (f r).state ≠ .closed) : Advances (modify f) := by
  intro feed p r h
  refine ⟨rfl, ?_, hopen r h.state_ne, ?_⟩
  · rw [run_modify, hinput]
    exact h.window
  · rw [run_modify, position, hinput]
    exact h.le_position

/-- A step that succeeds has taken a number of bytes or more. -/
def Spends (count : Nat) (x : Read α) : Prop :=
  ∀ feed r a r', r.input.Window feed → r.state ≠ .closed → x.run.run r = (.ok a, r') →
    Past feed (r.position + count) r' r'

theorem Advances.spends (hx : Advances x) : Spends 0 x := by
  intro feed r a r' hwindow hstate hrun
  have hpast := hx feed r.position r (past_self hwindow hstate)
  rwa [hrun] at hpast

theorem Steady.spends (hx : Steady x) : Spends 0 x := hx.advances.spends

theorem spends_of_fails (hx : ∀ r, Fails x r) : Spends count x := by
  intro feed r a r' _ _ hrun
  exact absurd hrun (hx r).ne_ok

theorem spends_onInput {step : Replay α} (hlocal : step.Local)
    (hstep : ∀ {feed b a b'}, ReplayBuffer.Window feed b → step.run.run b = (.ok a, b') →
      b.position + count ≤ b'.position) :
    Spends count (onInput step) := by
  intro feed r a r' hwindow hstate hrun
  have hpast := (local_onInput hlocal).advances.spends feed r a r' hwindow hstate hrun
  refine ⟨rfl, hpast.window, hpast.state_ne, ?_⟩
  rw [onInput_run] at hrun
  obtain ⟨hresult, rfl⟩ := Prod.mk.inj hrun
  exact hstep hwindow (Prod.ext hresult rfl)

theorem Spends.bind {count' : Nat} (hx : Spends count x) (hf : ∀ a, Spends count' (f a)) :
    Spends (count + count') (x >>= f) := by
  intro feed r b t hwindow hstate hrun
  obtain ⟨a, r', hfirst, hrest⟩ := exists_of_run_bind hrun
  have hpast := hx feed r a r' hwindow hstate hfirst
  have hpast' := hf a feed r' b t hpast.window hpast.state_ne hrest
  refine ⟨rfl, hpast'.window, hpast'.state_ne, ?_⟩
  have hle := hpast.le_position
  have hle' := hpast'.le_position
  omega

/-- Steps in turn take what one of them takes. -/
theorem Spends.bind_advances (hx : Spends count x) (hf : ∀ a, Advances (f a)) : Spends count (x >>= f) :=
  hx.bind fun a => (hf a).spends

theorem Advances.bind_spends (hx : Advances x) (hf : ∀ a, Spends count (f a)) : Spends count (x >>= f) := by
  have hspends := hx.spends.bind hf
  rwa [Nat.zero_add] at hspends

theorem spends_get_bind {f : Reader → Read β} (hf : ∀ r, Spends count (f r)) : Spends count (get >>= f) :=
  fun feed r => hf r feed r

theorem spends_ite {c : Prop} [Decidable c] {y : Read α} (hx : Spends count x) (hy : Spends count y) :
    Spends count (if c then x else y) := by
  split
  · exact hx
  · exact hy

/-- What may be refused takes what it takes when it is not. -/
theorem spends_check {c : Prop} [Decidable c] {x : Read Unit} {k : Unit → Read β} (hx : ∀ r, Fails x r)
    (hk : Spends count (k ())) : Spends count (if c then x >>= k else k ()) :=
  spends_ite (spends_of_fails fun r => (hx r).bind k) hk

theorem spends_cstring : Spends 1 (onInput Replay.cstring) :=
  spends_onInput Replay.local_cstring Replay.le_position_of_cstring_run

theorem spends_length (minimum : Int) : Spends 4 (length minimum) := by
  have hint32 : Spends 4 (onInput Replay.int32) :=
    spends_onInput Replay.local_int32 fun h hrun => Nat.le_of_eq (Replay.position_of_int32_run h hrun).symm
  refine local_offset.advances.bind_spends fun start => hint32.bind_advances fun length => Local.advances ?_
  refine local_check (local_throw _) fun _ => ?_
  exact local_get_bind (fun h => by simp only [h.limits_eq]) fun r => local_check (local_throw _) fun _ => local_pure _

theorem spends_openContainer (kind : FrameKind) : Spends 4 (openContainer kind) := by
  refine spends_get_bind fun r => spends_check (fun r => fails_throw _ r) ?_
  exact (spends_length 0).bind_advances fun declared => advances_modify (fun _ => rfl) fun _ => id

theorem advances_expectType (operation : String) (expected : ElementType) :
    Advances (expectType operation expected) := by
  refine advances_get_bind fun r => ?_
  split
  · exact (local_ite (local_pure _) (local_throw _)).advances
  · exact (local_refuse _).advances

/-- What is kept of a name, once its bytes have been taken. -/
theorem advances_named (name : Option String) :
    Advances (modify fun r => { r with currentName := name, state := .value }) :=
  advances_modify (fun _ => rfl) fun _ _ => nofun

end Read

namespace Reader

open Read

theorem spends_readName : Spends 1 readName := by
  refine local_ensureOpen.advances.bind_spends fun _ => spends_get_bind fun r => spends_check (fails_refuse _) ?_
  refine local_offset.advances.bind_spends fun start => spends_cstring.bind_advances fun bytes => ?_
  split
  · exact (local_throw _).advances
  · exact (advances_named _).bind_pure _

theorem spends_skipName : Spends 1 skipName := by
  refine local_ensureOpen.advances.bind_spends fun _ => spends_get_bind fun r => spends_check (fails_refuse _) ?_
  rw [discard_eq_bind]
  exact (spends_cstring.bind_advances fun _ => (local_pure ()).advances).bind_advances fun _ => advances_named none

theorem spends_startContainer (kind : FrameKind) : Spends 4 (do
    openContainer kind
    modify fun r => { r with state := .type }) :=
  (spends_openContainer kind).bind_advances fun _ => advances_modify (fun _ => rfl) fun _ _ => nofun

theorem spends_startDocument : Spends 4 startDocument := by
  refine local_ensureOpen.advances.bind_spends fun _ => spends_get_bind fun r => ?_
  have hopen (kind : FrameKind) := (local_pure kind).advances.bind_spends spends_startContainer
  split
  · exact hopen _
  · exact hopen _
  · exact hopen _
  · exact (advances_expectType _ _).bind_spends fun _ => hopen _
  · exact (local_refuse _).advances.bind_spends spends_startContainer

theorem spends_startArray : Spends 4 startArray :=
  (local_beginValue _ _).advances.bind_spends fun _ => spends_startContainer .array

end Reader

end Aggregation.Wire
