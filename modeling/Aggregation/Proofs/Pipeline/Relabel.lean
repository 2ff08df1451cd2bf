import Aggregation.Pipeline.Emission
import Aggregation.Proofs.Expr.Relabel

/-!
What is emitted goes by neither serials nor scopes. A tree that is given others has the same stages, or fails with the
same error. So trees of one structure are lowered to the same.
-/

namespace Aggregation

variable {σ : Nat → Nat} {ρ : Scope → Scope}

namespace Predicate

open Aggregation.Expr (relabel)

theorem clauses?_relabel (outer : Option BinaryOp) (e : Expr) :
    clauses? outer (e.relabel σ ρ) = clauses? outer e := by
  induction e using Expr.induction_children generalizing outer with
  | step e ih =>
      cases e with
      | binary i op left right =>
          have hleft := ih left (by simp [Expr.children])
          have hright := ih right (by simp [Expr.children])
          unfold relabel clauses?
          dsimp only
          rw [hleft, hright]
          split
          · cases left <;> cases right <;> rfl
          · rfl
      | unary i op operand =>
          cases op with
          | not =>
              rw [relabel, clauses?, clauses?, ih operand (by simp [Expr.children])]
          | negate => rfl
      | constant | field | document | accumulator | correlated | source | filter | group | project | sort | skip | limit
      | extension => rfl

theorem query?_relabel (e : Expr) : query? (e.relabel σ ρ) = query? e := by
  rw [query?, query?, clauses?_relabel]

end Predicate

namespace Lowering

open Aggregation.Expr (relabel)

/-- Named values that are lowered one by one come out the same if each of them does. -/
theorem entries_relabel {lower : Expr → Except CompileError Value}
    (go : List (String × Expr) → Except CompileError (List (String × Value)))
    (hcons : ∀ name e rest, go ((name, e) :: rest) = do
      let value ← lower e
      return (name, value) :: (← go rest)) {entries : List (String × Expr)}
    (h : ∀ f ∈ entries, lower (f.2.relabel σ ρ) = lower f.2) :
    go (Expr.relabelEntries σ ρ entries) = go entries := by
  induction entries with
  | nil => rfl
  | cons f rest ih =>
      obtain ⟨hf, hrest⟩ := List.forall_mem_cons.1 h
      rw [Expr.relabelEntries, hcons, hcons, hf, ih hrest]

theorem lowerScalar_relabel (e : Expr) : lowerScalar (e.relabel σ ρ) = lowerScalar e := by
  induction e using Expr.induction_children with
  | step e ih =>
      cases e with
      | binary i op left right =>
          rw [relabel, lowerScalar, lowerScalar, ih left (by simp [Expr.children]), ih right (by simp [Expr.children])]
      | unary i op operand =>
          cases op <;> rw [relabel, lowerScalar, lowerScalar, ih operand (by simp [Expr.children])]
      | document i fields =>
          have hfields := entries_relabel lowerFields (fun _ _ _ => rfl) fun f hf => ih f.2 (List.mem_map_of_mem hf)
          rw [relabel, lowerScalar, lowerScalar, hfields]
      | constant | field | accumulator | correlated | source | filter | group | project | sort | skip | limit
      | extension => rfl

theorem lowerProjected_relabel (e : Expr) : lowerProjected (e.relabel σ ρ) = lowerProjected e := by
  induction e using Expr.induction_children with
  | step e ih =>
      cases e with
      | document i fields =>
          have hfields := entries_relabel lowerProjectedFields (fun _ _ _ => rfl)
            fun f hf => ih f.2 (List.mem_map_of_mem hf)
          rw [relabel, lowerProjected, lowerProjected, hfields]
      | constant => rfl
      | field | binary | unary | accumulator | correlated | source | filter | group | project | sort | skip | limit
      | extension => exact lowerScalar_relabel _

theorem lowerAccumulator_relabel (e : Expr) : lowerAccumulator (e.relabel σ ρ) = lowerAccumulator e := by
  cases e with
  | accumulator i op operand =>
      cases operand with
      | none => cases op <;> rfl
      | some operand =>
          have hoperand : relabel σ ρ (.accumulator i op (some operand)) =
              .accumulator (i.relabel σ) op (some (operand.relabel σ ρ)) := rfl
          cases op with
          | count => rfl
          | sum | avg | min | max | first | last | push | addToSet =>
              rw [hoperand, lowerAccumulator, lowerAccumulator, lowerScalar_relabel]
              all_goals decide
  | constant | field | binary | unary | document | correlated | source | filter | group | project | sort | skip | limit
  | extension => rfl

theorem lowerQuery_relabel (e : Expr) : lowerQuery (e.relabel σ ρ) = lowerQuery e := by
  rw [lowerQuery, lowerQuery, Predicate.query?_relabel, lowerScalar_relabel]

/-- A predicate that is not always true becomes its query. -/
theorem lowerPredicate_eq {e : Expr} (h : ∀ i, e ≠ .constant i (.boolean true)) :
    lowerPredicate e = (return .filter (← lowerQuery e)) := by
  unfold lowerPredicate
  split
  · next i => exact absurd rfl (h i)
  · rfl

theorem lowerPredicate_relabel (e : Expr) : lowerPredicate (e.relabel σ ρ) = lowerPredicate e := by
  by_cases htrue : ∃ i, e = .constant i (.boolean true)
  · obtain ⟨i, rfl⟩ := htrue
    rfl
  · have hrelabel : ∀ i, e.relabel σ ρ ≠ .constant i (.boolean true) := by
      intro i h
      cases e with
      | constant j v =>
          cases h
          exact htrue ⟨j, rfl⟩
      | field | binary | unary | document | accumulator | correlated | source | filter | group | project | sort | skip
      | limit | extension => cases h
    rw [lowerPredicate_eq hrelabel, lowerPredicate_eq (not_exists.1 htrue), lowerQuery_relabel]

theorem lowerProjection_relabel (e : Expr) : lowerProjection (e.relabel σ ρ) = lowerProjection e := by
  cases e with
  | document i fields =>
      have hfields := entries_relabel (σ := σ) (ρ := ρ) lowerProjectedFields (fun _ _ _ => rfl)
        fun (f : String × Expr) (_ : f ∈ fields) => lowerProjected_relabel f.2
      have hid : (Expr.relabelEntries σ ρ fields).any (·.1 == "_id") = fields.any (·.1 == "_id") := by
        rw [Expr.relabelEntries_eq, List.any_map]
        rfl
      rw [relabel, lowerProjection, lowerProjection, hid, hfields]
  | constant | field | binary | unary | accumulator | correlated | source | filter | group | project | sort | skip
  | limit | extension =>
      exact congrArg (· >>= fun value => pure (Stage.project (.ofList [withoutId, (scalarField, value)])))
        (lowerProjected_relabel _)

/-- The stages of a tree go by neither serials nor scopes. -/
theorem lower_relabel (e : Expr) : lower (e.relabel σ ρ) = lower e := by
  induction e using Expr.induction_children with
  | step e ih =>
      cases e with
      | filter i input predicate =>
          rw [relabel, lower, lower, ih input (by simp [Expr.children]), lowerPredicate_relabel]
      | group i input key scope outputs =>
          have houtputs := entries_relabel (σ := σ) (ρ := ρ) lowerOutputs (fun _ _ _ => rfl)
            fun (f : String × Expr) (_ : f ∈ outputs) => lowerAccumulator_relabel f.2
          rw [relabel, lower, lower, ih input (by simp [Expr.children]), lowerScalar_relabel, houtputs]
      | project i input projection =>
          rw [relabel, lower, lower, ih input (by simp [Expr.children]), lowerProjection_relabel]
      | sort i input | skip i input | limit i input =>
          rw [relabel, lower, lower, ih input (by simp [Expr.children])]
      | constant | field | binary | unary | document | accumulator | correlated | source | extension => rfl

section Structure

variable {d e : Expr} (h : d.sameStructure e = true)

include h

/-- Trees of one structure differ in nothing that a function reads which goes by neither serials nor scopes. -/
theorem eq_of_sameStructure {α : Type} {f : Expr → α} (hf : ∀ e, f (e.relabel (fun _ => 0) id) = f e) : f d = f e := by
  rw [← hf d, ← hf e]
  exact congrArg f ((Expr.agree_same_iff d e).1 h)

/-- Scalars of one structure have one value. -/
theorem lowerScalar_eq_of_sameStructure : lowerScalar d = lowerScalar e :=
  eq_of_sameStructure h lowerScalar_relabel

/-- Accumulators of one structure compute one value. -/
theorem lowerAccumulator_eq_of_sameStructure : lowerAccumulator d = lowerAccumulator e :=
  eq_of_sameStructure h lowerAccumulator_relabel

end Structure

end Lowering

theorem emit_relabel (eliminates : Bool) (e : Expr) : emit eliminates (e.relabel σ ρ) = emit eliminates e := by
  rw [emit, emit, Lowering.lower_relabel]

end Aggregation
