import Aggregation.Pipeline.Emission
import Aggregation.Proofs.Plan.Replacement

/-!
When lowering succeeds. A scalar has a value exactly if all its nodes compute something, and a planned pipeline has
stages exactly if the accumulators of the tree that was planned stood where they may.
-/

namespace Aggregation

section Outcomes

variable {ε α β γ : Type} {x : Except ε α} {y : Except ε β}

theorem exists_of_isOk (h : x.isOk = true) : ∃ a, x = .ok a := by
  cases x with
  | error e => cases h
  | ok a => exact ⟨a, rfl⟩

/-- Steps succeed together if each does, where what the second does is not up to what the first gives. -/
theorem isOk_bind {f : α → Except ε β} {ok : Bool} (h : ∀ a, (f a).isOk = ok) :
    (x >>= f).isOk = (x.isOk && ok) := by
  cases x with
  | error e => rfl
  | ok a => exact (h a).trans (Bool.true_and ok).symm

theorem isOk_map (f : α → β) : (do return f (← x) : Except ε β).isOk = x.isOk := by
  cases x with
  | error e => rfl
  | ok a => rfl

theorem isOk_map₂ (f : α → β → γ) :
    (do let a ← x
        return f a (← y) : Except ε γ).isOk = (x.isOk && y.isOk) :=
  isOk_bind fun _ => isOk_map _

end Outcomes

/-- Whether nodes of a kind compute a value from the document in hand alone. -/
def NodeKind.isComputed : NodeKind → Bool
  | .constant | .field | .binary | .unary | .document => true
  | .accumulator | .correlated | .source | .filter | .group | .project | .sort | .skip | .limit | .extension => false

namespace Expr

variable {e c : Expr}

/-- All nodes of a tree compute a value. -/
def Computed (e : Expr) : Prop := ∀ d ∈ e.occurrences, d.kind.isComputed = true

theorem computed_iff : e.Computed ↔ e.kind.isComputed = true ∧ ∀ c ∈ e.children, c.Computed := by
  simp only [Computed, occurrences_eq e, List.forall_mem_cons, List.mem_flatMap, forall_exists_index, and_imp]
  exact and_congr_right fun _ => ⟨fun h c hc d hd => h d c hc hd, fun h d c hc hd => h c hc d hd⟩

@[simp] theorem computed_constant {i : NodeInfo} {v : Value} : (constant i v).Computed :=
  computed_iff.2 ⟨rfl, nofun⟩

@[simp] theorem computed_field {i : NodeInfo} {path : String} : (field i path).Computed :=
  computed_iff.2 ⟨rfl, nofun⟩

@[simp] theorem computed_binary {i : NodeInfo} {op : BinaryOp} {left right : Expr} :
    (binary i op left right).Computed ↔ left.Computed ∧ right.Computed := by
  refine computed_iff.trans ((and_iff_right rfl).trans ?_)
  simp [children]

@[simp] theorem computed_unary {i : NodeInfo} {op : UnaryOp} {operand : Expr} :
    (unary i op operand).Computed ↔ operand.Computed := by
  refine computed_iff.trans ((and_iff_right rfl).trans ?_)
  simp [children]

@[simp] theorem computed_document {i : NodeInfo} {fields : List (String × Expr)} :
    (document i fields).Computed ↔ ∀ f ∈ fields, f.2.Computed :=
  computed_iff.trans ((and_iff_right rfl).trans List.forall_mem_map)

/-- A scalar without accumulators computes. -/
theorem computed_of_containsAccumulator_eq_false (hw : e.WellFormed) (hn : e.Native) (hscalar : e.isPipeline = false)
    (hnone : e.containsAccumulator = false) : e.Computed := by
  intro d hd
  have hpipeline := isPipeline_eq_false_of_mem hw hn hscalar hd
  have haccumulator := containsAccumulator_eq_false_iff.1 hnone d hd
  have hextension := hn d hd
  cases d with
  | constant | field | binary | unary | document => rfl
  | accumulator | correlated => cases haccumulator
  | source | filter | group | project | sort | skip | limit => cases hpipeline
  | extension => cases hextension

end Expr

namespace Lowering

open Aggregation.Expr (computed_iff computed_constant computed_field computed_binary computed_unary computed_document)

variable {e e' : Expr} {fields : List (String × Expr)}

/-- Named values are lowered if each of them is. -/
theorem isOk_entries {lower : Expr → Except CompileError Value}
    {go : List (String × Expr) → Except CompileError (List (String × Value))} (hnil : go [] = .ok [])
    (hcons : ∀ name e rest, go ((name, e) :: rest) = do
      let value ← lower e
      return (name, value) :: (← go rest)) : (go fields).isOk = fields.all fun f => (lower f.2).isOk := by
  induction fields with
  | nil => rw [hnil]; rfl
  | cons f rest ih => rw [hcons, isOk_map₂, ih, List.all_cons]

theorem isOk_lowerFields : (lowerFields fields).isOk = fields.all fun f => (lowerScalar f.2).isOk :=
  isOk_entries rfl fun _ _ _ => rfl

theorem isOk_lowerProjectedFields :
    (lowerProjectedFields fields).isOk = fields.all fun f => (lowerProjected f.2).isOk :=
  isOk_entries rfl fun _ _ _ => rfl

theorem isOk_lowerOutputs : (lowerOutputs fields).isOk = fields.all fun f => (lowerAccumulator f.2).isOk :=
  isOk_entries rfl fun _ _ _ => rfl

/-- A scalar is lowered exactly if all its nodes compute. -/
theorem isOk_lowerScalar : (lowerScalar e).isOk = true ↔ e.Computed := by
  induction e using Expr.induction_children with
  | step e ih =>
      cases e with
      | constant => exact iff_of_true rfl computed_constant
      | field => exact iff_of_true rfl computed_field
      | binary i op left right =>
          have hleft := ih left (by simp [Expr.children])
          have hright := ih right (by simp [Expr.children])
          rw [lowerScalar, isOk_map₂, Bool.and_eq_true, hleft, hright, computed_binary]
      | unary i op operand =>
          have hoperand := ih operand (by simp [Expr.children])
          have hlower : (lowerScalar (.unary i op operand)).isOk = (lowerScalar operand).isOk := by
            cases op with
            | not | negate => exact isOk_map _
          rw [hlower, hoperand, computed_unary]
      | document i fields =>
          rw [lowerScalar, isOk_map, isOk_lowerFields, computed_document, List.all_eq_true]
          exact forall₂_congr fun f hf => ih f.2 (List.mem_map_of_mem hf)
      | accumulator | correlated | source | filter | group | project | sort | skip | limit | extension =>
          rw [computed_iff]
          refine iff_of_false Bool.false_ne_true fun h => ?_
          cases h.1

/-- In a projection as much is lowered. -/
theorem isOk_lowerProjected : (lowerProjected e).isOk = true ↔ e.Computed := by
  induction e using Expr.induction_children with
  | step e ih =>
      cases e with
      | constant => exact iff_of_true rfl computed_constant
      | document i fields =>
          rw [lowerProjected, isOk_map, isOk_lowerProjectedFields, computed_document, List.all_eq_true]
          exact forall₂_congr fun f hf => ih f.2 (List.mem_map_of_mem hf)
      | field | binary | unary | accumulator | correlated | source | filter | group | project | sort | skip | limit
      | extension => exact isOk_lowerScalar

theorem isOk_lowerProjection : (lowerProjection e).isOk = true ↔ e.Computed := by
  cases e with
  | document i fields =>
      rw [lowerProjection, isOk_map, isOk_lowerProjectedFields, computed_document, List.all_eq_true]
      exact forall₂_congr fun _ _ => isOk_lowerProjected
  | constant | field | binary | unary | accumulator | correlated | source | filter | group | project | sort | skip
  | limit | extension =>
      rw [← isOk_lowerProjected]
      exact Bool.eq_iff_iff.1 (isOk_map _)

/-- What has clauses computes. -/
theorem computed_of_clauses? {outer : Option BinaryOp} {clauses : List Document}
    (h : Predicate.clauses? outer e = some clauses) : e.Computed := by
  induction e using Expr.induction_children generalizing outer clauses with
  | step e ih =>
      cases e with
      | binary i op left right =>
          unfold Predicate.clauses? at h
          split at h
          · split at h
            · simp
            · simp
            · cases h
          · split at h
            · obtain ⟨ls, hls, h⟩ := Option.bind_eq_some_iff.1 h
              obtain ⟨rs, hrs, -⟩ := Option.bind_eq_some_iff.1 h
              exact computed_binary.2 ⟨ih left (by simp [Expr.children]) hls, ih right (by simp [Expr.children]) hrs⟩
            · cases h
      | unary i op operand =>
          cases op with
          | negate => cases h
          | not =>
              rw [Predicate.clauses?] at h
              split at h
              · next query hquery => exact computed_unary.2 (ih operand (by simp [Expr.children]) hquery)
              · cases h
      | constant | field | document | accumulator | correlated | source | filter | group | project | sort | skip
      | limit | extension => cases h

theorem isOk_lowerQuery : (lowerQuery e).isOk = true ↔ e.Computed := by
  unfold lowerQuery
  split
  · next query hquery =>
    refine iff_of_true rfl ?_
    unfold Predicate.query? at hquery
    split at hquery
    · next hclauses => exact computed_of_clauses? hclauses
    · cases hquery
  · rw [← isOk_lowerScalar]
    exact Bool.eq_iff_iff.1 (isOk_map _)

theorem isOk_lowerPredicate : (lowerPredicate e).isOk = true ↔ e.Computed := by
  unfold lowerPredicate
  split
  · exact iff_of_true rfl computed_constant
  · rw [← isOk_lowerQuery]
    exact Bool.eq_iff_iff.1 (isOk_map _)

/-- The outputs of groups are lowered. -/
theorem isOk_lowerAccumulator (hw : e.WellFormed) (hn : e.Native) (hkind : e.kind = .accumulator) :
    (lowerAccumulator e).isOk = true := by
  cases e with
  | accumulator i op operand =>
      obtain ⟨hoperand, htype⟩ := hw.checked
      cases operand with
      | none =>
          cases op with
          | count => rfl
          | sum | avg | min | max | first | last | push | addToSet => cases htype
      | some d =>
          have hmem : d ∈ Expr.children (.accumulator i op (some d)) := List.mem_singleton_self d
          obtain ⟨hscalar, hnone⟩ := hoperand d rfl
          have hlower := isOk_lowerScalar.2
            (Expr.computed_of_containsAccumulator_eq_false (hw.child hmem) (hn.child hmem) hscalar hnone)
          cases op with
          | count => rfl
          | sum | avg | min | max | first | last | push | addToSet => exact (isOk_map _).trans hlower
  | constant | field | binary | unary | document | correlated | source | filter | group | project | sort | skip | limit
  | extension => cases hkind

section Planned

variable {root : Expr} {up : List Expr}

/-- What planning makes of a scalar computes exactly if the accumulators of the scalar stood where they may. -/
theorem computed_iff_placed (hw : e.WellFormed) (hn : e.Native) (hscalar : e.isPipeline = false)
    (h : Replaced root up e e') : e'.Computed ↔ e.Placed := by
  induction h with
  | correlated => exact iff_of_true computed_field (Expr.placed_of_correlated hw rfl)
  | filter | group | project => cases hscalar
  | @kept up e hkind n children hlength _ ih =>
      have hmem {c : Expr} (hc : c ∈ e.children) : c.WellFormed ∧ c.Native ∧ c.isPipeline = false :=
        ⟨hw.child hc, hn.child hc,
          Expr.isPipeline_child_eq_false hw.checked (Expr.native_iff.1 hn).1 hscalar hc⟩
      have hchildren : (∀ c' ∈ children, c'.Computed) ↔ ∀ c ∈ e.children, c.Placed := by
        constructor
        · intro h c hc
          obtain ⟨k, hk⟩ := List.mem_iff_getElem?.1 hc
          obtain ⟨c', hc', hzip⟩ := Replaced.exists_getElem?_zip hlength hk
          obtain ⟨hwc, hnc, hsc⟩ := hmem hc
          exact (ih hzip hwc hnc hsc).1 (h c' (List.mem_of_getElem? hc'))
        · intro h c' hc'
          obtain ⟨c, hc, hzip⟩ := Replaced.exists_mem_zip hlength hc'
          obtain ⟨hwc, hnc, hsc⟩ := hmem hc
          exact (ih hzip hwc hnc hsc).2 (h c hc)
      simp only [List.mem_cons, List.not_mem_nil, or_false, not_or] at hkind
      have hself : e.kind.isComputed = true ↔ e.kind ≠ .accumulator := by
        have hextension := (Expr.native_iff.1 hn).1
        cases e with
        | constant | field | binary | unary | document => simp [Expr.kind, NodeKind.isComputed]
        | accumulator => simp [Expr.kind, NodeKind.isComputed]
        | correlated => exact absurd rfl hkind.1
        | source | filter | group | project | sort | skip | limit => cases hscalar
        | extension => cases hextension
      rw [computed_iff, Replaced.kind_withChildren, Expr.children_withChildren hlength.symm, hchildren, hself,
        Expr.Placed, Expr.tidy_iff_placed hkind.1 hkind.2.2.1]

/-- What planning makes of a pipeline is lowered exactly if the accumulators of the pipeline stood where they may. -/
theorem isOk_lower_iff_placed (hroot : root.WellFormed) (hnative : root.Native) (hw : e.WellFormed) (hn : e.Native)
    (hpipeline : e.isPipeline = true) (h : Replaced root up e e') : (lower e').isOk = true ↔ e.Placed := by
  induction h with
  | correlated => cases hpipeline
  | @filter up i n input input' predicate predicate' _ hpredicate ih =>
      obtain ⟨hp, hscalar, -⟩ := hw.checked
      have hmem : predicate ∈ Expr.children (.filter i input predicate) := by simp [Expr.children]
      have hinput := ih (hw.child List.mem_cons_self) (hn.child List.mem_cons_self) hp
      have hcomputed := computed_iff_placed (hw.child hmem) (hn.child hmem) hscalar hpredicate
      have hlower : (lower (.filter ⟨n, i.type⟩ input' predicate')).isOk
          = ((lower input').isOk && (lowerPredicate predicate').isOk) := isOk_bind fun _ => isOk_map _
      have hplaced := Expr.placed_iff (e := .filter i input predicate) (by simp [Expr.kind])
      rw [hlower, Bool.and_eq_true, hinput, isOk_lowerPredicate, hcomputed, hplaced]
      simp [Expr.children]
  | @project up i n input input' projection projection' _ hprojection ih =>
      obtain ⟨hp, hscalar, -⟩ := hw.checked
      have hmem : projection ∈ Expr.children (.project i input projection) := by simp [Expr.children]
      have hinput := ih (hw.child List.mem_cons_self) (hn.child List.mem_cons_self) hp
      have hcomputed := computed_iff_placed (hw.child hmem) (hn.child hmem) hscalar hprojection
      have hlower : (lower (.project ⟨n, i.type⟩ input' projection')).isOk
          = ((lower input').isOk && (lowerProjection projection').isOk) := isOk_bind fun _ => isOk_map _
      have hplaced := Expr.placed_iff (e := .project i input projection) (by simp [Expr.kind])
      rw [hlower, Bool.and_eq_true, hinput, isOk_lowerProjection, hcomputed, hplaced]
      simp [Expr.children]
  | @group up i n input input' key key' scope old new _ hkey hadded ih =>
      obtain ⟨hp, hscalar, hnone, -⟩ := hw.checked
      have hmem : key ∈ Expr.children (.group i input key scope old) := by simp [Expr.children]
      have hinput := ih (hw.child List.mem_cons_self) (hn.child List.mem_cons_self) hp
      have hlowered : (lowerScalar key').isOk = true := isOk_lowerScalar.2
        ((computed_iff_placed (hw.child hmem) (hn.child hmem) hscalar hkey).2
          (Expr.placed_of_containsAccumulator_eq_false hnone))
      have houtputs : (lowerOutputs (old ++ new)).isOk = true := by
        rw [isOk_lowerOutputs, List.all_eq_true]
        intro f hf
        obtain ⟨hwf, hnf, hkind⟩ := (List.mem_append.1 hf).elim (Replaced.outputs_sound hw hn f)
          (Replaced.added_sound hroot hnative hadded f)
        exact isOk_lowerAccumulator hwf hnf hkind
      have hlower : (lower (.group ⟨n, i.type⟩ input' key' scope (old ++ new))).isOk
          = ((lower input').isOk && ((lowerScalar key').isOk && (lowerOutputs (old ++ new)).isOk)) :=
        isOk_bind fun _ => isOk_map₂ _
      rw [hlower, hlowered, houtputs, Bool.and_true, Bool.and_true, hinput, Expr.placed_group_iff hw]
  | @kept up e hkind n children hlength _ ih =>
      have hone {input : Expr} (hchildren : e.children = [input]) (hp : input.isPipeline = true)
          (hlower : ∀ i input', (lower (e.withChildren i [input'])).isOk = (lower input').isOk) :
          (lower (e.withChildren ⟨n, e.type⟩ children)).isOk = true ↔ e.Placed := by
        rw [hchildren] at hlength
        obtain ⟨input', rfl⟩ := List.length_eq_one_iff.1 hlength.symm
        have hmem : input ∈ e.children := by simp [hchildren]
        have hzip : (input, input') ∈ e.children.zip [input'] := by simp [hchildren]
        have hplaced := Expr.placed_iff (e := e) (by
          simp only [List.mem_cons, List.not_mem_nil, or_false, not_or] at hkind ⊢
          refine ⟨fun hacc => ?_, hkind.1, hkind.2.2.1⟩
          rw [Expr.isPipeline, hacc] at hpipeline
          cases hpipeline)
        rw [hlower, ih hzip (hw.child hmem) (hn.child hmem) hp, hplaced, hchildren]
        simp
      have hchecked := hw.checked
      cases e with
      | constant | field | binary | unary | document | accumulator | correlated | extension => cases hpipeline
      | filter | group | project => exact absurd (by simp [Expr.kind]) hkind
      | source i collection =>
          have hplaced := Expr.placed_iff (e := .source i collection) (by simp [Expr.kind])
          exact iff_of_true rfl (hplaced.2 (List.forall_mem_nil _))
      | sort | skip | limit => exact hone rfl hchecked.1 fun _ _ => isOk_map _

end Planned

/-- Only pipelines are lowered to stages. -/
theorem isPipeline_of_isOk_lower (h : (lower e).isOk = true) : e.isPipeline = true := by
  cases e with
  | source | filter | group | project | sort | skip | limit => rfl
  | constant | field | binary | unary | document | accumulator | correlated | extension => cases h

end Lowering

/-- The stages that are left out have been lowered all the same. -/
theorem isOk_emit (eliminates : Bool) (e : Expr) : (emit eliminates e).isOk = (Lowering.lower e).isOk := by
  unfold emit
  cases eliminates with
  | true | false => exact isOk_map _

end Aggregation
