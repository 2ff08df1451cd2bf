import Aggregation.Proofs.Wire.Skipping
import Aggregation.Proofs.Wire.Values

/-! Two readers at the same place in a feed. They may know different names, have logged different things and keep
different bytes; none of this decides whether a step succeeds and what it gives. -/

namespace Aggregation.Wire

open Stepping

namespace Reader

open Read

/-- Two open readers at one place in a feed. -/
structure Abreast (feed : Feed) (r q : Reader) : Prop extends Beside r q where
  left : r.input.Window feed
  right : q.input.Window feed

variable {feed : Feed} {r q s : Reader}

theorem abreast_self (h : r.input.Window feed) (hstate : r.state ≠ .closed) : Abreast feed r r :=
  ⟨⟨rfl, rfl, hstate, rfl, fun _ => rfl, rfl⟩, h, h⟩

/-- What names the readers know does not matter. -/
theorem Abreast.rename (h : Abreast feed r q) (name name' : Option String) :
    Abreast feed { r with currentName := name } { q with currentName := name' } :=
  ⟨⟨h.position_eq, h.limits_eq, h.state_ne, h.state_eq, h.type_eq, h.frames_eq⟩, h.left, h.right⟩

/-- Whatever the first reader succeeds in, the second one succeeds in. -/
def abreast (feed : Feed) : Bond := ⟨Abreast feed, True, fun _ => False⟩

theorem Abreast.onInput (h : Abreast feed r q) {α : Type} {step : Replay α} (hstep : step.Steady) :
    Follows (abreast feed) (Read.onInput step) (Read.onInput step) r q := by
  obtain ⟨result, next, -, hsettles⟩ := hstep.settles feed r.position
  obtain ⟨b, hr, hb⟩ := hsettles r.input h.left rfl
  obtain ⟨c, hq, hc⟩ := hsettles q.input h.right h.position_eq.symm
  refine .same ?_
  rw [Matches, onInput_run, onInput_run, hr, hq]
  exact ⟨rfl, h.toBeside.onInput (hb.position_eq.trans hc.position_eq.symm), hb.window, hc.window⟩

theorem lasting_abreast (feed : Feed) : (abreast feed).Lasting where
  beside h := h.toBeside
  left h := ⟨feed, h.left⟩
  right h := ⟨feed, h.right⟩
  alike hexact := absurd trivial hexact
  lenient_of_lacks := False.elim
  onInput hstep _ _ h := h.onInput hstep.steady
  foresees _ _ _ hstep _ _ h := h.onInput hstep
  wear h _ _ hlook _ := ⟨h.wear hlook, h.left, h.right⟩
  record hexact := absurd trivial hexact
  compact := by
    intro r q h
    have hr := h.left.reaches_compact
    have hq := h.right.reaches_compact
    have hposition := hr.position_eq.trans (h.position_eq.trans hq.position_eq.symm)
    exact ⟨h.toBeside.onInput hposition, hr.window, hq.window⟩

variable {α : Type} {x : Read α} {a : α}

/-- A step that succeeds gives the same on readers at the same place. -/
theorem Abreast.of_steady (h : Abreast feed r q) (hx : x.Steady) (hrun : x.run.run r = (.ok a, s)) :
    ∃ t, x.run.run q = (.ok a, t) ∧ Abreast feed s t :=
  ((hx (lasting_abreast feed) (fun _ => id) h).ok hrun).resolve_left fun ⟨_, _, hlacks⟩ => hlacks

/-- A value that can be read within some number of steps is read by a reader at the same place. -/
theorem Abreast.readValue_run (h : Abreast feed r q) {fuel : Nat} {type : ElementType} {v : Value}
    (hrun : (readValueWithin fuel type).run.run r = (.ok v, s)) :
    ∃ t, (readValue type).run.run q = (.ok v, t) ∧ Abreast feed s t :=
  ((follows_readValueWithin (lasting_abreast feed) trivial h fuel type).ok hrun).resolve_left
    fun ⟨_, _, hlacks⟩ => hlacks

/-- Where a name is read it can be passed over. -/
theorem Abreast.skipName_of_readName (h : Abreast feed r q) {name : String}
    (hrun : readName.run.run r = (.ok name, s)) :
    ∃ t, skipName.run.run q = (.ok (), t) ∧ Abreast feed s t := by
  obtain ⟨t, hskip, hst⟩ := h.of_steady local_skipName.steady (skipName_run_of_readName hrun)
  exact ⟨t, hskip, hst.rename s.currentName t.currentName⟩

end Reader

end Aggregation.Wire
