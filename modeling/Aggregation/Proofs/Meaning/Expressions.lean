import Aggregation.Expr.Equality
import Aggregation.Proofs.Meaning.Interpretation

/-!
The value of an expression on a row, and of its accumulators over the rows of a group. Expressions of one structure
have one value, so an output of a group may be read by every accumulator of its structure.
-/

namespace Aggregation.Expr

variable (I : Interpretation)

mutual

/-- The value of a scalar; nodes that are none have no value. -/
def value (members : List Document) (row : Document) : Expr → Value
  | .constant _ v => v
  | .field _ path => I.lookup row path
  | .binary _ op left right => I.binary op (value members row left) (value members row right)
  | .unary _ op operand => I.unary op (value members row operand)
  | .document _ fields => .document ⟨fieldValues members row fields⟩
  | .accumulator _ _ none => I.count members
  | .accumulator _ op (some operand) => I.accumulate op (members.map fun r => value members r operand)
  | .correlated _ _ inner => value members row inner
  | .source .. | .filter .. | .group .. | .project .. | .sort .. | .skip .. | .limit .. | .extension .. => .null

def fieldValues (members : List Document) (row : Document) : List (String × Expr) → List (String × Value)
  | [] => []
  | (name, e) :: rest => (name, value members row e) :: fieldValues members row rest

end

/-- The document of a group: its key, and its outputs over its rows. -/
def groupRow (outputs : List (String × Expr)) (key : Value) (members : List Document) : Document :=
  ⟨("_id", key) :: fieldValues I members (keyRow key) outputs⟩

theorem fieldValues_eq_map (members : List Document) (row : Document) (fields : List (String × Expr)) :
    fieldValues I members row fields = fields.map fun f => (f.1, f.2.value I members row) := by
  induction fields with
  | nil => rfl
  | cons f rest ih =>
      obtain ⟨name, e⟩ := f
      rw [fieldValues, ih, List.map_cons]

mutual

theorem value_eq_of_agree (members : List Document) (row : Document) :
    ∀ d e : Expr, agree Value.same d e = true → d.value I members row = e.value I members row
  | .constant _ v, e, h => by
      cases e <;> simp only [agree, Bool.false_eq_true, Bool.and_eq_true] at h
      exact Value.same_iff_eq.1 h.2
  | .field _ path, e, h => by
      cases e <;> simp only [agree, Bool.false_eq_true, Bool.and_eq_true, beq_iff_eq] at h
      rw [value, value, h.2]
  | .binary _ op left right, e, h => by
      cases e <;> simp only [agree, Bool.false_eq_true, Bool.and_eq_true, beq_iff_eq] at h
      obtain ⟨⟨⟨-, rfl⟩, hleft⟩, hright⟩ := h
      rw [value, value, value_eq_of_agree members row _ _ hleft, value_eq_of_agree members row _ _ hright]
  | .unary _ op operand, e, h => by
      cases e <;> simp only [agree, Bool.false_eq_true, Bool.and_eq_true, beq_iff_eq] at h
      obtain ⟨⟨-, rfl⟩, hoperand⟩ := h
      rw [value, value, value_eq_of_agree members row _ _ hoperand]
  | .document _ fields, e, h => by
      cases e <;> simp only [agree, Bool.false_eq_true, Bool.and_eq_true] at h
      rw [value, value, fieldValues_eq_of_agree members row _ _ h.2]
  | .accumulator _ op none, e, h => by
      rcases e with _ | _ | _ | _ | _ | ⟨_, _, _ | _⟩ <;> simp only [agree, Bool.false_eq_true] at h
      rw [value, value]
  | .accumulator _ op (some operand), e, h => by
      rcases e with _ | _ | _ | _ | _ | ⟨_, _, _ | d⟩ <;>
        simp only [agree, Bool.false_eq_true, Bool.and_eq_true, beq_iff_eq] at h
      obtain ⟨⟨-, rfl⟩, hoperand⟩ := h
      rw [value, value]
      congr 2
      funext r
      exact value_eq_of_agree members r operand d hoperand
  | .correlated _ _ inner, e, h => by
      cases e <;> simp only [agree, Bool.false_eq_true, Bool.and_eq_true] at h
      rw [value, value, value_eq_of_agree members row _ _ h.2]
  | .source .., e, h | .filter .., e, h | .group .., e, h | .project .., e, h | .sort .., e, h
  | .skip .., e, h | .limit .., e, h | .extension .., e, h => by
      cases e <;> simp only [agree, Bool.false_eq_true] at h
      rw [value, value]

theorem fieldValues_eq_of_agree (members : List Document) (row : Document) :
    ∀ fs gs : List (String × Expr), agreeEntries Value.same fs gs = true →
      fieldValues I members row fs = fieldValues I members row gs
  | [], gs, h => by
      cases gs with
      | nil => rfl
      | cons => simp only [agreeEntries, Bool.false_eq_true] at h
  | (m, d) :: fs, gs, h => by
      cases gs with
      | nil => simp only [agreeEntries, Bool.false_eq_true] at h
      | cons g gs =>
          simp only [agreeEntries, Bool.and_eq_true, beq_iff_eq] at h
          obtain ⟨⟨rfl, hd⟩, hrest⟩ := h
          rw [fieldValues, fieldValues, value_eq_of_agree members row d _ hd,
            fieldValues_eq_of_agree members row fs gs hrest]

end

theorem value_eq_of_sameStructure {d e : Expr} (h : d.sameStructure e = true) (members : List Document)
    (row : Document) : d.value I members row = e.value I members row :=
  value_eq_of_agree I members row d e h

end Aggregation.Expr
