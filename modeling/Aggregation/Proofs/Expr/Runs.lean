import Aggregation.Expr.Build

/-!
Runs that succeed. A run of two steps that succeeds is a successful run of the first and one of the second from where
the first got, so a successful run is taken apart step by step.
-/

namespace Aggregation

theorem bind_eq_ok {ε α β : Type} {x : Except ε α} {f : α → Except ε β} {b : β} :
    (x >>= f) = .ok b ↔ ∃ a, x = .ok a ∧ f a = .ok b := by
  cases x with
  | error e => exact ⟨fun h => (nomatch h), fun ⟨_, h, _⟩ => (nomatch h)⟩
  | ok a => exact ⟨fun h => ⟨a, rfl, h⟩, fun ⟨_, h, hb⟩ => by cases h; exact hb⟩

/-- The supply after one more serial. -/
def Supply.next (s : Supply) : Supply := { s with nextNode := s.nextNode + 1 }

namespace Build

variable {α β : Type} {s s' t : Supply}

theorem run_bind_eq_ok {x : Build α} {f : α → Build β} {b : β} :
    (x >>= f).run s = .ok (b, t) ↔ ∃ a s', x.run s = .ok (a, s') ∧ (f a).run s' = .ok (b, t) := by
  rw [StateT.run_bind, bind_eq_ok]
  exact ⟨fun ⟨p, hx, hf⟩ => ⟨p.1, p.2, hx, hf⟩, fun ⟨a, s', hx, hf⟩ => ⟨(a, s'), hx, hf⟩⟩

theorem run_lift_eq_ok {x : Except CompileError α} {a : α} :
    (liftM x : Build α).run s = .ok (a, t) ↔ x = .ok a ∧ t = s := by
  cases x with
  | error e => exact ⟨fun h => (nomatch h), fun h => (nomatch h.1)⟩
  | ok b => exact ⟨fun h => by cases h; exact ⟨rfl, rfl⟩, fun ⟨h, ht⟩ => by cases h; cases ht; rfl⟩

theorem run_pure_eq_ok {a b : α} : (pure a : Build α).run s = .ok (b, t) ↔ b = a ∧ t = s :=
  ⟨fun h => by cases h; exact ⟨rfl, rfl⟩, fun ⟨hb, ht⟩ => by rw [hb, ht]; rfl⟩

/-- A check that is passed is no step. -/
theorem ok_bind {a : α} {f : α → Build β} : (liftM (.ok a : Except CompileError α) >>= f : Build β) = f a := rfl

theorem run_throw_ne_ok {e : CompileError} {a : α} : (throw e : Build α).run s ≠ .ok (a, t) := nofun

theorem run_throw_bind_ne_ok {e : CompileError} {f : α → Build β} {b : β} :
    ((throw e : Build α) >>= f).run s ≠ .ok (b, t) := nofun

theorem demand_eq_ok {condition : Bool} {flaw : ExprFlaw} {u : Unit} :
    demand condition flaw = .ok u ↔ condition = true := by
  cases condition
  · exact ⟨nofun, nofun⟩
  · exact ⟨fun _ => rfl, fun _ => rfl⟩

theorem run_mint_eq_ok {type : ResultType} {i : NodeInfo} :
    (mint type).run s = .ok (i, t) ↔ i = ⟨s.nextNode, type⟩ ∧ t = s.next :=
  ⟨fun h => by cases h; exact ⟨rfl, rfl⟩, fun ⟨hi, ht⟩ => by rw [hi, ht]; rfl⟩

end Build

end Aggregation
