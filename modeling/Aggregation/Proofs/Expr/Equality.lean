import Aggregation.Expr.Equality
import Mathlib.Data.List.Forall2

/-!
What a node says itself, beside its type and its children. Expressions have one structure if they have one type, say
the same and have children of one structure, each like the one in its place. So having one structure is an equivalence.
-/

namespace Aggregation.Expr

/-- What there is to a node beside its serial, its type and its children. -/
inductive Payload where
  | constant (value : Value)
  | field (path : String)
  | binary (op : BinaryOp)
  | unary (op : UnaryOp)
  | document (names : List String)
  | accumulator (op : AccumulatorOp)
  | correlated (scope : Scope)
  | source (collection : String)
  | filter
  | group (scope : Scope) (names : List String)
  | project
  | sort (keys : List SortKey)
  | skip (count : Nat)
  | limit (count : Nat)
  | extension (name : String)
  deriving DecidableEq

/-- The payload of a node. -/
def payload : Expr → Payload
  | .constant _ value => .constant value
  | .field _ path => .field path
  | .binary _ op _ _ => .binary op
  | .unary _ op _ => .unary op
  | .document _ fields => .document (fields.map Prod.fst)
  | .accumulator _ op _ => .accumulator op
  | .correlated _ scope _ => .correlated scope
  | .source _ collection => .source collection
  | .filter .. => .filter
  | .group _ _ _ scope outputs => .group scope (outputs.map Prod.fst)
  | .project .. => .project
  | .sort _ _ keys => .sort keys
  | .skip _ _ count => .skip count
  | .limit _ _ count => .limit count
  | .extension _ name _ => .extension name

def Payload.kind : Payload → NodeKind
  | .constant _ => .constant
  | .field _ => .field
  | .binary _ => .binary
  | .unary _ => .unary
  | .document _ => .document
  | .accumulator _ => .accumulator
  | .correlated _ => .correlated
  | .source _ => .source
  | .filter => .filter
  | .group .. => .group
  | .project => .project
  | .sort _ => .sort
  | .skip _ => .skip
  | .limit _ => .limit
  | .extension _ => .extension

theorem kind_payload (e : Expr) : e.payload.kind = e.kind := by cases e <;> rfl

theorem kind_eq_of_agree {eq : Value → Value → Bool} {d e : Expr} (h : agree eq d e = true) : d.kind = e.kind := by
  cases d <;> cases e <;> first | rfl | simp only [agree, Bool.false_eq_true] at h

theorem agreeEntries_same_iff_forall₂ {fs gs : List (String × Expr)} : agreeEntries Value.same fs gs = true ↔
    fs.map Prod.fst = gs.map Prod.fst ∧
      List.Forall₂ (fun c c' => agree Value.same c c' = true) (fs.map Prod.snd) (gs.map Prod.snd) := by
  induction fs generalizing gs with
  | nil => cases gs <;> simp [agreeEntries]
  | cons f fs ih =>
      cases gs with
      | nil => simp [agreeEntries]
      | cons g gs =>
          obtain ⟨name, d⟩ := f
          obtain ⟨name', e⟩ := g
          simp only [agreeEntries, Bool.and_eq_true, beq_iff_eq, ih, List.map_cons, List.cons.injEq,
            List.forall₂_cons]
          tauto

theorem agreeArgs_same_iff_forall₂ {ds es : List Expr} :
    agreeArgs Value.same ds es = true ↔ List.Forall₂ (fun c c' => agree Value.same c c' = true) ds es := by
  induction ds generalizing es with
  | nil => cases es <;> simp [agreeArgs]
  | cons d ds ih =>
      cases es with
      | nil => simp [agreeArgs]
      | cons e es => simp only [agreeArgs, Bool.and_eq_true, ih, List.forall₂_cons]

/-- Having one structure goes node by node. -/
theorem sameStructure_iff {d e : Expr} : d.sameStructure e = true ↔
    d.type = e.type ∧ d.payload = e.payload ∧
      List.Forall₂ (fun c c' => c.sameStructure c' = true) d.children e.children := by
  by_cases hkind : d.kind = e.kind
  · cases d with
    | constant =>
        cases e <;> cases hkind
        simp [sameStructure, agree, payload, children, type, info, Value.same_iff_eq]
    | field | source | binary | filter | project | unary | correlated | sort | skip | limit =>
        cases e <;> cases hkind
        simp [sameStructure, agree, payload, children, type, info, and_assoc]
    | document =>
        cases e <;> cases hkind
        simp [sameStructure, agree, payload, children, type, info, agreeEntries_same_iff_forall₂]
    | accumulator i op operand =>
        rcases e with _ | _ | _ | _ | _ | ⟨_, _, operand'⟩ <;> cases hkind
        cases operand <;> cases operand' <;>
          simp [sameStructure, agree, payload, children, type, info, and_assoc]
    | group =>
        cases e <;> cases hkind
        simp only [sameStructure, agree, payload, children, type, info, agreeEntries_same_iff_forall₂,
          Bool.and_eq_true, beq_iff_eq, Payload.group.injEq, List.forall₂_cons]
        tauto
    | extension =>
        cases e <;> cases hkind
        simp [sameStructure, agree, payload, children, type, info, agreeArgs_same_iff_forall₂, and_assoc]
  · refine iff_of_false (fun h => hkind ?_) fun h => hkind ?_
    · exact kind_eq_of_agree h
    · rw [← kind_payload, h.2.1, kind_payload]

theorem sameStructure_self (e : Expr) : e.sameStructure e = true := by
  induction e using induction_children with
  | step e ih => exact sameStructure_iff.2 ⟨rfl, rfl, List.forall₂_same.2 ih⟩

theorem sameStructure_symm {d e : Expr} (h : d.sameStructure e = true) : e.sameStructure d = true := by
  induction d using induction_children generalizing e with
  | step d ih =>
      obtain ⟨htype, hpayload, hchildren⟩ := sameStructure_iff.1 h
      have hback := (List.forall₂_and_left ..).2 ⟨ih, hchildren⟩
      exact sameStructure_iff.2 ⟨htype.symm, hpayload.symm, (hback.imp fun _ _ hc => hc.1 hc.2).flip⟩

end Aggregation.Expr
