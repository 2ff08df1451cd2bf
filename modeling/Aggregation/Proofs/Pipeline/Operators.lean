import Aggregation.Pipeline.Lowering
import Aggregation.Proofs.Expr.Named
import Aggregation.Proofs.Expr.Runs
import Aggregation.Proofs.Meaning.Flags
import Aggregation.Proofs.Meaning.Operators
import Aggregation.Proofs.Record

/-!
Scalars and the values that they become, under any interpretation of operators. The value of a scalar is read as an
expression that has the result of the scalar: constants are never read as paths or operators, at whatever depth they
stand, and documents of good names are computed field by field. In a projection the same holds of the value that is
made for it, in which nothing is read as a flag.
-/

namespace Aggregation

namespace Lowering

open Reading (binaryOp? flag? flagPlaces isOperator)

universe u v

theorem isOperator_stageKey (op : BinaryOp) : isOperator op.stageKey = true := by
  cases op <;> rfl

theorem binaryOp?_stageKey (op : BinaryOp) : binaryOp? op.stageKey = some op := by
  cases op <;> rfl

theorem stageKey_ne_literal (op : BinaryOp) : op.stageKey ≠ "$literal" := by
  cases op <;> decide

theorem not_isOperator_of_isOutputName {name : String} (h : Build.isOutputName name = true) :
    isOperator name = false := by
  simp only [Build.isOutputName, Bool.and_eq_true, Bool.not_eq_true'] at h
  exact h.1.1.2

section Lists

variable {lower : Expr → Except CompileError Value} {fields : List (String × Expr)} {values : List (String × Value)}

/-- The named values of a list come from the scalars of the same names. -/
def FieldsBecome (lower : Expr → Except CompileError Value) (fields : List (String × Expr))
    (values : List (String × Value)) : Prop :=
  List.Forall₂ (fun f g => f.1 = g.1 ∧ lower f.2 = .ok g.2) fields values

theorem FieldsBecome.map_fst (h : FieldsBecome lower fields values) :
    values.map Prod.fst = fields.map Prod.fst := by
  induction h with
  | nil => rfl
  | cons hf _ ih => rw [List.map_cons, List.map_cons, hf.1, ih]

/-- A function of the named expressions that lowers them one after the other and keeps their names. -/
theorem fieldsBecome_of_lowered {all : List (String × Expr) → Except CompileError (List (String × Value))}
    (hnil : all [] = .ok [])
    (hcons : ∀ name e rest, all ((name, e) :: rest) = do
      let v ← lower e
      let vs ← all rest
      return (name, v) :: vs)
    (h : all fields = .ok values) : FieldsBecome lower fields values := by
  induction fields generalizing values with
  | nil =>
      rw [hnil] at h
      cases h
      exact .nil
  | cons f rest ih =>
      obtain ⟨name, e⟩ := f
      rw [hcons] at h
      obtain ⟨v, hv, h⟩ := bind_eq_ok.1 h
      obtain ⟨vs, hvs, h⟩ := bind_eq_ok.1 h
      cases h
      exact .cons ⟨rfl, hv⟩ (ih hvs)

theorem fieldsBecome_of_lowerFields (h : lowerFields fields = .ok values) :
    FieldsBecome lowerScalar fields values :=
  fieldsBecome_of_lowered (by rw [lowerFields]) (fun _ _ _ => by rw [lowerFields]) h

theorem fieldsBecome_of_lowerProjectedFields (h : lowerProjectedFields fields = .ok values) :
    FieldsBecome lowerProjected fields values :=
  fieldsBecome_of_lowered (by rw [lowerProjectedFields]) (fun _ _ _ => by rw [lowerProjectedFields]) h

/-- Named values of scalars make a document that has them all, if the names are distinct. -/
theorem FieldsBecome.ofList_eq (h : FieldsBecome lower fields values) (hdistinct : (fields.map Prod.fst).Nodup) :
    Record.ofList values = ⟨values⟩ :=
  Record.ofList_eq_mk (by rwa [h.map_fst])

theorem FieldsBecome.not_isOperator (h : FieldsBecome lower fields values)
    (hnames : ∀ f ∈ fields, Build.isOutputName f.1 = true) : ∀ g ∈ values, isOperator g.1 = false := by
  intro g hg
  have hmem : g.1 ∈ fields.map Prod.fst := h.map_fst ▸ List.mem_map.2 ⟨g, hg, rfl⟩
  obtain ⟨f, hf, hname⟩ := List.mem_map.1 hmem
  exact not_isOperator_of_isOutputName (hname ▸ hnames f hf)

/-- What holds of the values of all scalars of a list holds of the values of the list. -/
theorem FieldsBecome.forall_mem {p : Value → Prop} (h : FieldsBecome lower fields values)
    (hvalue : ∀ f ∈ fields, ∀ v, lower f.2 = .ok v → p v) : ∀ g ∈ values, p g.2 := by
  induction h with
  | nil => exact List.forall_mem_nil _
  | @cons f g fs gs hfg _ ih =>
      exact List.forall_mem_cons.2 ⟨hvalue f List.mem_cons_self g.2 hfg.2,
        ih fun f hf => hvalue f (List.mem_cons_of_mem _ hf)⟩

end Lists

section Operators

variable {ρ : Type u} {α : Type v} (O : Operators ρ α) (row : ρ)

/-- Text without a dollar sign in front is itself. -/
theorem read_string {s : String} (h : (s.toList.head? == some '$') = false) :
    O.read row (.string s) = O.constant (.string s) := by
  rw [Operators.read]
  split
  · next path hs =>
      rw [hs] at h
      cases h
  · rfl

mutual

theorem read_of_needsLiteral_eq_false : ∀ v : Value, needsLiteral v = false → O.read row v = O.constant v
  | .string s, h => read_string O row h
  | .document _, h => by rw [needsLiteral] at h; cases h
  | .array items, h => by
      rw [Operators.read, readItems_of_anyNeedsLiteral_eq_false items h, O.array_constant]
  | .double _, _ | .binary _ _, _ | .undefined, _ | .objectId _, _ | .boolean _, _ | .dateTime _, _ | .null, _
  | .regularExpression _ _, _ | .dbPointer _ _, _ | .javaScript _, _ | .symbol _, _ | .scopedCode _ _, _
  | .int32 _, _ | .timestamp _ _, _ | .int64 _, _ | .decimal128 _, _ | .minKey, _ | .maxKey, _ => by
      rw [Operators.read] <;> simp

theorem readItems_of_anyNeedsLiteral_eq_false :
    ∀ items : List Value, anyNeedsLiteral items = false → O.readItems row items = items.map O.constant
  | [], _ => rfl
  | v :: rest, h => by
      obtain ⟨hv, hrest⟩ := Bool.or_eq_false_iff.1 h
      rw [Operators.readItems, read_of_needsLiteral_eq_false v hv, readItems_of_anyNeedsLiteral_eq_false rest hrest,
        List.map_cons]

end

theorem read_literal (v : Value) : O.read row (literal v) = O.constant v := by
  show O.readDocument row [("$literal", v)] = O.constant v
  unfold Operators.readDocument
  rw [if_pos ⟨rfl, rfl⟩]

theorem read_field (path : String) : O.read row (.string ("$" ++ path)) = O.field row path := by
  have htext : ("$" ++ path).toList = '$' :: path.toList := by
    rw [String.toList_append]
    rfl
  rw [Operators.read, htext]
  show O.field row (String.ofList path.toList) = O.field row path
  rw [String.ofList_toList]

theorem read_apply (op : BinaryOp) (v w : Value) :
    O.read row (apply op.stageKey [v, w]) = O.binary op (O.read row v) (O.read row w) := by
  show O.readDocument row [(op.stageKey, .array [v, w])] = _
  unfold Operators.readDocument
  rw [if_neg fun h => stageKey_ne_literal op h.2, if_pos ⟨rfl, isOperator_stageKey op⟩]
  show O.apply op.stageKey [O.read row v, O.read row w] = _
  unfold Operators.apply
  rw [binaryOp?_stageKey]

theorem read_not (v : Value) : O.read row (apply "$not" [v]) = O.not (O.read row v) := rfl

/-- A document none of whose fields is an operator is computed field by field. -/
theorem read_document {fields : List (String × Value)} (h : ∀ f ∈ fields, isOperator f.1 = false) :
    O.read row (.document ⟨fields⟩) = O.document (O.readFields row fields) := by
  show O.readDocument row fields = _
  cases fields with
  | nil => rfl
  | cons f rest =>
      obtain ⟨key, v⟩ := f
      have hkey : isOperator key = false := h (key, v) List.mem_cons_self
      have hliteral : key ≠ "$literal" := fun heq => by rw [heq] at hkey; cases hkey
      unfold Operators.readDocument
      rw [if_neg fun hl => hliteral hl.2, if_neg fun ho => Bool.false_ne_true (hkey.symm.trans ho.2)]
      rfl

theorem FieldsBecome.fieldResults?_eq {lower : Expr → Except CompileError Value} {fields : List (String × Expr)}
    {values : List (String × Value)} (h : FieldsBecome lower fields values)
    (hvalue : ∀ f ∈ fields, ∀ v, lower f.2 = .ok v → O.result? row f.2 = some (O.read row v)) :
    O.fieldResults? row fields = some (O.readFields row values) := by
  induction h with
  | nil => rfl
  | @cons f g fs gs hfg _ ih =>
      obtain ⟨name, e⟩ := f
      obtain ⟨name', v⟩ := g
      obtain ⟨hname, hv⟩ : name = name' ∧ lower e = .ok v := hfg
      rw [Operators.fieldResults?, hvalue (name, e) List.mem_cons_self v hv,
        ih fun f hf => hvalue f (List.mem_cons_of_mem _ hf), hname]
      rfl

/-- A document of scalars is read as the document of their results. -/
theorem FieldsBecome.result?_document {lower : Expr → Except CompileError Value} {i : NodeInfo}
    {fields : List (String × Expr)} {values : List (String × Value)} (h : FieldsBecome lower fields values)
    (hn : (Expr.document i fields).WellNamed)
    (hvalue : ∀ f ∈ fields, ∀ v, lower f.2 = .ok v → O.result? row f.2 = some (O.read row v)) :
    O.result? row (.document i fields) = some (O.read row (.document (.ofList values))) := by
  obtain ⟨hnames, hdistinct⟩ := hn.named
  rw [h.ofList_eq hdistinct, read_document O row (h.not_isOperator hnames), Operators.result?,
    h.fieldResults?_eq O row hvalue]
  rfl

/-- The value of a scalar is read as an expression that has the result of the scalar. -/
theorem result?_eq_read_lowerScalar {e : Expr} {v : Value} (hn : e.WellNamed) (h : lowerScalar e = .ok v) :
    O.result? row e = some (O.read row v) := by
  induction e using Expr.induction_children generalizing v with
  | step e ih =>
      cases e with
      | constant i c =>
          rw [Operators.result?]
          cases hneeds : needsLiteral c with
          | true =>
              rw [lowerScalar, if_pos hneeds] at h
              cases h
              rw [read_literal]
          | false =>
              rw [lowerScalar, if_neg (Bool.eq_false_iff.1 hneeds)] at h
              cases h
              rw [read_of_needsLiteral_eq_false O row _ hneeds]
      | field i path =>
          rw [lowerScalar] at h
          cases h
          rw [read_field, Operators.result?]
      | binary i op left right =>
          rw [lowerScalar] at h
          obtain ⟨l, hl, h⟩ := bind_eq_ok.1 h
          obtain ⟨r, hr, h⟩ := bind_eq_ok.1 h
          cases h
          have hleft : left ∈ Expr.children (.binary i op left right) := List.mem_cons_self
          have hright : right ∈ Expr.children (.binary i op left right) := List.mem_cons_of_mem _ List.mem_cons_self
          rw [read_apply, Operators.result?, ih left hleft (hn.child hleft) hl, ih right hright (hn.child hright) hr]
          rfl
      | unary i op operand =>
          have hoperand : operand ∈ Expr.children (.unary i op operand) := List.mem_cons_self
          cases op with
          | not =>
              rw [lowerScalar] at h
              obtain ⟨o, ho, h⟩ := bind_eq_ok.1 h
              cases h
              rw [read_not, Operators.result?, ih operand hoperand (hn.child hoperand) ho]
              rfl
          | negate =>
              rw [lowerScalar] at h
              obtain ⟨o, ho, h⟩ := bind_eq_ok.1 h
              cases h
              rw [read_apply, Operators.result?, ih operand hoperand (hn.child hoperand) ho]
              rfl
      | document i fields =>
          rw [lowerScalar] at h
          obtain ⟨values, hvalues, h⟩ := bind_eq_ok.1 h
          cases h
          refine (fieldsBecome_of_lowerFields hvalues).result?_document O row hn fun f hf v hv => ?_
          have hchild : f.2 ∈ Expr.children (.document i fields) := List.mem_map_of_mem hf
          exact ih f.2 hchild (hn.child hchild) hv
      | accumulator | correlated | source | filter | group | project | sort | skip | limit | extension => cases h

/-- The value that a projection has for a scalar is read in the same way. -/
theorem result?_eq_read_lowerProjected {e : Expr} {v : Value} (hn : e.WellNamed) (h : lowerProjected e = .ok v) :
    O.result? row e = some (O.read row v) := by
  induction e using Expr.induction_children generalizing v with
  | step e ih =>
      cases e with
      | constant i c =>
          rw [lowerProjected] at h
          cases h
          rw [read_literal, Operators.result?]
      | document i fields =>
          rw [lowerProjected] at h
          obtain ⟨values, hvalues, h⟩ := bind_eq_ok.1 h
          cases h
          refine (fieldsBecome_of_lowerProjectedFields hvalues).result?_document O row hn fun f hf v hv => ?_
          have hchild : f.2 ∈ Expr.children (.document i fields) := List.mem_map_of_mem hf
          exact ih f.2 hchild (hn.child hchild) hv
      | field | binary | unary | accumulator | correlated | source | filter | group | project | sort | skip | limit
      | extension => exact result?_eq_read_lowerScalar O row hn h

end Operators

section Flags

/-- Nothing in the value that a projection has for a scalar is read as a flag. -/
theorem flag?_eq_none_of_lowerProjected {e : Expr} {v : Value} (hn : e.WellNamed) (h : lowerProjected e = .ok v) :
    ∀ w ∈ flagPlaces v, flag? w = none := by
  induction e using Expr.induction_children generalizing v with
  | step e ih =>
      cases e with
      | constant i c =>
          rw [lowerProjected] at h
          cases h
          rw [literal, Reading.flagPlaces_operator c rfl]
          exact List.forall_mem_nil _
      | document i fields =>
          rw [lowerProjected] at h
          obtain ⟨values, hvalues, h⟩ := bind_eq_ok.1 h
          cases h
          have hbecome := fieldsBecome_of_lowerProjectedFields hvalues
          obtain ⟨hnames, hdistinct⟩ := hn.named
          have hvalue := hbecome.forall_mem (p := fun v => ∀ w ∈ flagPlaces v, flag? w = none) fun f hf v hv =>
            ih f.2 (List.mem_map_of_mem hf) (hn.child (List.mem_map_of_mem hf)) hv
          rw [hbecome.ofList_eq hdistinct, Reading.flagPlaces_document (hbecome.not_isOperator hnames)]
          intro w hw
          obtain ⟨f, hf, hw⟩ := Reading.mem_flagPlacesFields.1 hw
          exact hvalue f hf w hw
      | field i path =>
          cases h
          exact List.forall_mem_singleton.2 rfl
      | binary i op left right =>
          obtain ⟨l, hl, h⟩ := bind_eq_ok.1 h
          obtain ⟨r, hr, h⟩ := bind_eq_ok.1 h
          cases h
          rw [apply, Reading.flagPlaces_operator _ (isOperator_stageKey op)]
          exact List.forall_mem_nil _
      | unary i op operand =>
          cases op with
          | not | negate =>
              obtain ⟨o, ho, h⟩ := bind_eq_ok.1 h
              cases h
              rw [apply, Reading.flagPlaces_operator _ rfl]
              exact List.forall_mem_nil _
      | accumulator | correlated | source | filter | group | project | sort | skip | limit | extension => cases h

end Flags

end Lowering

end Aggregation
