import Aggregation.Proofs.Wire.Windows

/-! Reading without looking ahead. What a step on the input gives depends on the bytes that it takes, not on those
after them, so that over a beginning of the bytes it gives the same or runs out of them. -/

namespace Aggregation.Wire

open Stepping

namespace Replay

variable {α β : Type} {step : Replay α}

/-- A step that does not look ahead: over a beginning of the bytes it gives what it gives over all of them, or runs out
of bytes. -/
structure Local (step : Replay α) : Prop where
  steady : step.Steady
  cut : ∀ {feed feed' : Feed} {b c b' : ReplayBuffer} {a : α}, feed'.bytes <+: feed.bytes → b.Window feed →
    c.Window feed' → b.position = c.position → step.run.run b = (.ok a, b') →
      (step.run.run c).1 = .error feed'.shortage ∨
        ∃ c', step.run.run c = (.ok a, c') ∧ c'.Window feed' ∧ b'.position = c'.position

theorem Local.map (h : Local step) (k : α → β) : Local (do return k (← step)) where
  steady := h.steady.bind fun _ => steady_pure _
  cut hstarts hb hc hposition hrun := by
    obtain ⟨a, b', hfirst, hk⟩ := exists_of_run_bind hrun
    cases hk
    refine (h.cut hstarts hb hc hposition hfirst).imp (fun hlack => ?_) fun ⟨c', hgives, hc', hposition'⟩ => ?_
    · rw [run_bind_error (Prod.ext hlack rfl)]
    · exact ⟨c', run_bind_ok hgives, hc', hposition'⟩

/-- What settles at a place over both the beginning and all of the bytes. -/
theorem local_of_settles (hsteady : step.Steady)
    (h : ∀ {feed feed' : Feed} {p : Nat}, feed'.bytes <+: feed.bytes →
      Settles feed' step p (.error feed'.shortage) p ∨
        ∃ a next, Settles feed step p (.ok a) next ∧ Settles feed' step p (.ok a) next) : Local step where
  steady := hsteady
  cut := by
    intro feed feed' b c b' a hstarts hb hc hposition hrun
    rcases h (p := b.position) hstarts with hlack | ⟨a', next, hall, hbeginning⟩
    · obtain ⟨c', hrun', -⟩ := hlack c hc hposition.symm
      exact .inl (by rw [hrun'])
    · obtain ⟨b'', hrun', hreaches⟩ := hall b hb rfl
      obtain ⟨c', hgives, hreaches'⟩ := hbeginning c hc hposition.symm
      cases hrun.symm.trans hrun'
      exact .inr ⟨c', hgives, hreaches'.window, hreaches.position_eq.trans hreaches'.position_eq.symm⟩

theorem local_bytes (count : Nat) : Local (bytes count) := by
  refine local_of_settles (steady_bytes count) fun {feed feed' p} hstarts => ?_
  obtain ⟨more, hbytes⟩ := hstarts
  rcases Nat.lt_or_ge feed'.bytes.length (p + count) with hlt | hle
  · exact .inl (settles_demand_of_lt _ hlt)
  · have hle' : p + count ≤ feed.bytes.length := by
      rw [← hbytes, List.length_append]
      omega
    have htake : (feed.bytes.drop p).take count = (feed'.bytes.drop p).take count := by
      rw [← hbytes, List.drop_append_of_le_length (by omega), List.take_append_of_le_length]
      rw [List.length_drop]
      omega
    exact .inr ⟨_, _, settles_bytes_of_le hle', htake ▸ settles_bytes_of_le hle⟩

theorem local_byte : Local byte := by
  refine local_of_settles steady_byte fun {feed feed' p} hstarts => ?_
  obtain ⟨more, hbytes⟩ := hstarts
  rcases Nat.lt_or_ge p feed'.bytes.length with hlt | hge
  · have hlt' : p < feed.bytes.length := by
      rw [← hbytes, List.length_append]
      omega
    have hbyte : feed.bytes[p] = feed'.bytes[p] := by simp only [← hbytes, List.getElem_append_left hlt]
    exact .inr ⟨_, _, settles_byte_of_lt hlt', hbyte ▸ settles_byte_of_lt hlt⟩
  · exact .inl (settles_demand_of_lt _ (Nat.lt_succ_of_le hge))

theorem local_cstring : Local cstring := by
  refine local_of_settles steady_cstring fun {feed feed' p} hstarts => ?_
  obtain ⟨more, hbytes⟩ := hstarts
  by_cases hmem : 0 ∈ feed'.bytes.drop p
  · obtain ⟨name, rest, hdrop, hname⟩ := List.eq_append_cons_of_mem hmem
    have hle : p ≤ feed'.bytes.length := by
      have hlength := congrArg List.length hdrop
      rw [List.length_drop, List.length_append, List.length_cons] at hlength
      omega
    have hdrop' : feed.bytes.drop p = name ++ 0 :: (rest ++ more) := by
      rw [← hbytes, List.drop_append_of_le_length hle, hdrop, List.append_assoc]
      rfl
    exact .inr ⟨_, _, settles_cstring_of_nul hdrop' hname, settles_cstring_of_nul hdrop hname⟩
  · exact .inl (settles_cstring_of_not_mem hmem)

theorem local_skip (count : Nat) : Local (skip count) := by
  refine local_of_settles (steady_skip count) fun {feed feed' p} hstarts => ?_
  rcases Nat.lt_or_ge feed'.bytes.length (p + count) with hlt | hle
  · exact .inl (settles_demand_of_lt _ hlt)
  · exact .inr ⟨_, _, settles_skip_of_le (Nat.le_trans hle hstarts.length_le), settles_skip_of_le hle⟩

theorem local_natural (count : Nat) : Local (natural count) := (local_bytes count).map _

theorem local_int32 : Local int32 := (local_natural 4).map _

theorem local_int64 : Local int64 := (local_natural 8).map _

end Replay

end Aggregation.Wire
