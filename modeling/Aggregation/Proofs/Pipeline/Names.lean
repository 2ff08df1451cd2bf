import Aggregation.Proofs.Pipeline.Positions
import Aggregation.Proofs.Pipeline.Predicates
import Aggregation.Proofs.Pipeline.Stages
import Aggregation.Proofs.Wire.Clean

/-!
The names in the documents of stages. Most of them are operators, or names that the rules of nodes keep free of NUL.
Only the path of a sort key, and that of a field which a query compares with a constant, becomes a name as it is, and
nothing keeps a NUL out of a path.
-/

namespace Aggregation

open Wire.Layout (Clean CleanIff)

namespace Expr

variable {e c : Expr}

/-- The paths by which a node is read off a document, if it is. An accumulator that is tied to a scope will be the field
of an output, which has a name and no path. -/
def readPaths? : Expr → Option (List String)
  | .field _ path => some [path]
  | .correlated .. => some []
  | _ => none

theorem exists_of_kind_eq_constant (h : e.kind = .constant) : ∃ i v, e = .constant i v := by
  cases e with
  | constant i v => exact ⟨i, v, rfl⟩
  | field | binary | unary | document | accumulator | correlated | source | filter | group | project | sort | skip
  | limit | extension => cases h

theorem readPaths?_eq_none (hplain : e.kind ≠ .correlated) (hfield : ∀ i path, e ≠ .field i path) :
    e.readPaths? = none := by
  cases e with
  | field i path => exact absurd rfl (hfield i path)
  | correlated => exact absurd rfl hplain
  | constant | binary | unary | document | accumulator | source | filter | group | project | sort | skip | limit
  | extension => rfl

/-- The paths of what is compared with a constant, if one of two operands is a constant. -/
def besideConstant? (left right : Expr) : Option (List String) :=
  if right.kind = .constant then left.readPaths?
  else if left.kind = .constant then right.readPaths?
  else none

theorem besideConstant?_eq_none {left right : Expr} (hleft : left.kind ≠ .correlated)
    (hright : right.kind ≠ .correlated) (hfield : ∀ i path j v, left = .field i path → right ≠ .constant j v)
    (hfield' : ∀ i v j path, left = .constant i v → right ≠ .field j path) : besideConstant? left right = none := by
  rw [besideConstant?]
  split
  · next hkind =>
      obtain ⟨j, v, rfl⟩ := exists_of_kind_eq_constant hkind
      exact readPaths?_eq_none hleft fun i path heq => hfield i path j v heq rfl
  · split
    · next hkind =>
        obtain ⟨i, v, rfl⟩ := exists_of_kind_eq_constant hkind
        exact readPaths?_eq_none hright fun j path heq => hfield' i v j path rfl heq
    · rfl

/-- The paths of the fields in a predicate, if it is made of comparisons with constants alone. -/
def comparedPaths? : Expr → Option (List String)
  | .binary _ op left right =>
    if op.isComparison then besideConstant? left right
    else if op.isConnective then do
      return (← comparedPaths? left) ++ (← comparedPaths? right)
    else none
  | .unary _ .not operand => comparedPaths? operand
  | _ => none

/-- The paths that become names in the stage of a pipeline. -/
def ownKeyPaths : Expr → List String
  | .filter _ _ predicate => predicate.comparedPaths?.getD []
  | .sort _ _ keys => keys.map SortKey.path
  | _ => []

/-- The paths that become names in the stages of a pipeline. -/
def keyPaths (e : Expr) : List String := e.chain.flatMap ownKeyPaths

/-- The constants in a tree are clean. -/
def CleanConstants (e : Expr) : Prop := ∀ i v, .constant i v ∈ e.occurrences → Clean v

theorem CleanConstants.child (h : e.CleanConstants) (hc : c ∈ e.children) : c.CleanConstants :=
  fun i v hmem => h i v (mem_occurrences_of_child hc hmem)

end Expr

namespace Lowering

open Wire.Layout (clean_nil cleanIff_ofList)

variable {e : Expr} {v : Value} {fields : List (String × Expr)} {values : List (String × Value)}

theorem nul_notMem_of_isOutputName {name : String} (h : Build.isOutputName name = true) : '\x00' ∉ name.toList := by
  simp only [Build.isOutputName, Bool.and_eq_true, Bool.not_eq_true'] at h
  exact fun hmem => Bool.false_ne_true (h.2.symm.trans (List.contains_iff_mem.2 hmem))

theorem nul_notMem_stageKey (op : BinaryOp) : '\x00' ∉ op.stageKey.toList := by
  cases op <;> decide

theorem clean_int32 (n : Int32) : Clean (.int32 n) := ⟨trivial, Iff.rfl⟩

theorem clean_literal (h : Clean v) : Clean (literal v) := h.under (by decide)

theorem clean_apply (op : BinaryOp) {w : Value} (hv : Clean v) (hw : Clean w) : Clean (apply op.stageKey [v, w]) :=
  ((hv.cons hw.item).congr (and_self True).to_iff).under (nul_notMem_stageKey op)

/-- A document of clean values under names of nodes is clean. -/
theorem clean_ofList (h : ∀ f ∈ values, '\x00' ∉ f.1.toList ∧ Clean f.2) : Clean (.document (.ofList values)) :=
  (cleanIff_ofList fun f hf => (h f hf).2).congr (iff_true_intro fun f hf => (h f hf).1)

/-- Named scalars become clean values under names without NUL. -/
theorem FieldsBecome.clean {lower : Expr → Except CompileError Value} (h : FieldsBecome lower fields values)
    (hfields : ∀ f ∈ fields, Build.isOutputName f.1 = true ∧ ∀ v, lower f.2 = .ok v → Clean v) :
    ∀ g ∈ values, '\x00' ∉ g.1.toList ∧ Clean g.2 := by
  induction h with
  | nil => nofun
  | @cons f g fs gs hfg _ ih =>
      obtain ⟨⟨hname, hvalue⟩, hrest⟩ := List.forall_mem_cons.1 hfields
      refine List.forall_mem_cons.2 ⟨⟨?_, hvalue g.2 hfg.2⟩, ih hrest⟩
      exact hfg.1 ▸ nul_notMem_of_isOutputName hname

/-- A scalar becomes a clean value. -/
theorem clean_lowerScalar (hw : e.WellFormed) (hconstants : e.CleanConstants) (h : lowerScalar e = .ok v) :
    Clean v := by
  induction e using Expr.induction_children generalizing v with
  | step e ih =>
      have hchild {c : Expr} {v : Value} (hc : c ∈ e.children) (h : lowerScalar c = .ok v) : Clean v :=
        ih c hc (hw.child hc) (hconstants.child hc) h
      cases e with
      | constant i c =>
          have hc : Clean c := hconstants i c (Expr.mem_occurrences_self _)
          rw [lowerScalar] at h
          cases h
          split
          · exact clean_literal hc
          · exact hc
      | field i path =>
          cases h
          exact ⟨trivial, Iff.rfl⟩
      | binary i op left right =>
          obtain ⟨l, hl, h⟩ := bind_eq_ok.1 h
          obtain ⟨r, hr, h⟩ := bind_eq_ok.1 h
          cases h
          exact clean_apply op (hchild List.mem_cons_self hl) (hchild (List.mem_cons_of_mem _ List.mem_cons_self) hr)
      | unary i op operand =>
          cases op with
          | not =>
              obtain ⟨o, ho, h⟩ := bind_eq_ok.1 h
              cases h
              exact (hchild List.mem_cons_self ho).item.under (by decide)
          | negate =>
              obtain ⟨o, ho, h⟩ := bind_eq_ok.1 h
              cases h
              exact clean_apply .subtract (clean_int32 0) (hchild List.mem_cons_self ho)
      | document i fields =>
          obtain ⟨values, hvalues, h⟩ := bind_eq_ok.1 h
          cases h
          refine clean_ofList ((fieldsBecome_of_lowerFields hvalues).clean fun f hf => ?_)
          exact ⟨(hw.checked.1 f hf).1, fun v hv => hchild (List.mem_map_of_mem hf) hv⟩
      | accumulator | correlated | source | filter | group | project | sort | skip | limit | extension => cases h

/-- In a projection a scalar becomes a clean value. -/
theorem clean_lowerProjected (hw : e.WellFormed) (hconstants : e.CleanConstants) (h : lowerProjected e = .ok v) :
    Clean v := by
  induction e using Expr.induction_children generalizing v with
  | step e ih =>
      cases e with
      | constant i c =>
          cases h
          exact clean_literal (hconstants i c (Expr.mem_occurrences_self _))
      | document i fields =>
          obtain ⟨values, hvalues, h⟩ := bind_eq_ok.1 h
          cases h
          refine clean_ofList ((fieldsBecome_of_lowerProjectedFields hvalues).clean fun f hf => ?_)
          have hc : f.2 ∈ Expr.children (.document i fields) := List.mem_map_of_mem hf
          exact ⟨(hw.checked.1 f hf).1, fun v hv => ih f.2 hc (hw.child hc) (hconstants.child hc) hv⟩
      | field | binary | unary | accumulator | correlated | source | filter | group | project | sort | skip | limit
      | extension => exact clean_lowerScalar hw hconstants h

/-- An output of a group becomes a clean value. -/
theorem clean_lowerAccumulator (hw : e.WellFormed) (hconstants : e.CleanConstants)
    (h : lowerAccumulator e = .ok v) : Clean v := by
  cases e with
  | accumulator i op operand =>
      cases operand with
      | none =>
          cases op with
          | count =>
              cases h
              exact (clean_int32 1).under (by decide)
          | sum | avg | min | max | first | last | push | addToSet => cases h
      | some d =>
          have hd : d ∈ Expr.children (.accumulator i op (some d)) := List.mem_singleton_self d
          cases op with
          | count =>
              cases h
              exact (clean_int32 1).under (by decide)
          | sum | avg | min | max | first | last | push | addToSet =>
              obtain ⟨w, hlower, h⟩ := bind_eq_ok.1 h
              cases h
              exact (clean_lowerScalar (hw.child hd) (hconstants.child hd) hlower).under (by decide)
  | constant | field | binary | unary | document | correlated | source | filter | group | project | sort | skip
  | limit | extension => cases h

section Predicates

open Predicate (clause comparison clauses? clauses?_not eq_singleton_of_clauses? query?)

/-- No path holds a NUL. -/
def AreNulFreePaths (paths : List String) : Prop := ∀ path ∈ paths, '\x00' ∉ path.toList

theorem cleanIff_comparison (path : String) (op : BinaryOp) (hv : Clean v) :
    CleanIff (.document (comparison path op v)) (AreNulFreePaths [path]) := by
  have hone : '\x00' ∉ path.toList ∧ True ↔ AreNulFreePaths [path] := by
    rw [AreNulFreePaths, List.forall_mem_singleton, and_true]
  rw [comparison]
  split
  · exact (hv.single path).congr hone
  · exact ((hv.under (nul_notMem_stageKey op)).single path).congr hone

/-- Two steps that may fail give related results if they start from related ones. -/
theorem rel_bind_bind {α β : Type} {R : α → β → Prop} {x x' : Option α} {y y' : Option β} {f : α → α → Option α}
    {g : β → β → Option β} (h : Option.Rel R x y) (h' : Option.Rel R x' y')
    (hfg : ∀ {a b a' b'}, R a b → R a' b' → Option.Rel R (f a a') (g b b')) :
    Option.Rel R (do f (← x) (← x')) (do g (← y) (← y')) := by
  cases h with
  | none => exact .none
  | some h =>
      cases h' with
      | none => exact .none
      | some h' => exact hfg h h'

/-- Clauses are clean exactly if paths are free of NUL. -/
def CleanClauses (clauses : List Document) (paths : List String) : Prop :=
  CleanIff (.array (clauses.map .document)) (AreNulFreePaths paths)

theorem rel_query?_of_rel {paths : Option (List String)} (h : Option.Rel CleanClauses (clauses? none e) paths) :
    Option.Rel (fun query paths => CleanIff (.document query) (AreNulFreePaths paths)) (query? e) paths := by
  rw [query?]
  generalize hclauses : clauses? none e = clauses at h
  cases h with
  | none => exact .none
  | some h =>
      obtain ⟨query, rfl⟩ := eq_singleton_of_clauses? hclauses
      exact .some ⟨h.distinct.1, (and_true _).to_iff.symm.trans h.nulFree_iff⟩

/-- Clauses are clean exactly if the paths of the fields are that they compare, and a predicate without clauses has no
such paths. -/
theorem rel_clauses? (hplain : ∀ d ∈ e.occurrences, d.kind ≠ .correlated) (hconstants : e.CleanConstants)
    (outer : Option BinaryOp) :
    Option.Rel CleanClauses (clauses? outer e) e.comparedPaths? := by
  induction e using Expr.induction_children generalizing outer with
  | step e ih =>
      have hchild {c : Expr} (hc : c ∈ e.children) (outer : Option BinaryOp) :=
        ih c hc (fun d hd => hplain d (Expr.mem_occurrences_of_child hc hd)) (hconstants.child hc) outer
      have hconstant {i : NodeInfo} {v : Value} (hc : .constant i v ∈ e.children) : Clean v :=
        hconstants.child hc i v (Expr.mem_occurrences_self _)
      have hkind {c : Expr} (hc : c ∈ e.children) : c.kind ≠ .correlated :=
        hplain c (Expr.mem_occurrences_of_child hc (Expr.mem_occurrences_self c))
      cases e with
      | binary i op left right =>
          have hl : left ∈ Expr.children (.binary i op left right) := List.mem_cons_self
          have hr : right ∈ Expr.children (.binary i op left right) := List.mem_cons_of_mem _ List.mem_cons_self
          unfold clauses? Expr.comparedPaths?
          split
          · split
            · exact .some (cleanIff_comparison _ op (hconstant hr)).item
            · exact .some (cleanIff_comparison _ op.swapped (hconstant hl)).item
            · next hfield hfield' =>
                rw [Expr.besideConstant?_eq_none (hkind hl) (hkind hr) (fun i path j v hl hr => hfield i path j v hl hr)
                  fun i v j path hl hr => hfield' i v j path hl hr]
                exact .none
          · split
            · refine rel_bind_bind (hchild hl (some op)) (hchild hr (some op)) fun {ls ps rs qs} hleft hright => ?_
              have hall : CleanIff (.array ((ls ++ rs).map .document)) (AreNulFreePaths (ps ++ qs)) := by
                rw [List.map_append]
                exact (hleft.append hright).congr List.forall_mem_append.symm
              -- under the same connective the clauses are passed on, else they are joined to one
              split
              · exact .some hall
              · exact .some (hall.under (nul_notMem_stageKey op)).item
            · exact .none
      | unary i op operand =>
          cases op with
          | negate => exact .none
          | not =>
              have hoperand := rel_query?_of_rel (hchild (List.mem_singleton_self operand) none)
              rw [clauses?_not, Expr.comparedPaths?]
              generalize query? operand = query, operand.comparedPaths? = paths at hoperand ⊢
              cases hoperand with
              | none => exact .none
              | some hquery => exact .some (hquery.item.under (by decide)).item
      | constant | field | document | accumulator | correlated | source | filter | group | project | sort | skip
      | limit | extension => exact .none

theorem rel_query? (hplain : ∀ d ∈ e.occurrences, d.kind ≠ .correlated) (hconstants : e.CleanConstants) :
    Option.Rel (fun query paths => CleanIff (.document query) (AreNulFreePaths paths)) (query? e) e.comparedPaths? :=
  rel_query?_of_rel (rel_clauses? hplain hconstants none)

end Predicates

section Stages

variable {stage : Stage} {stages : List Stage} {collection : String}

theorem nul_notMem_operator (stage : Stage) : '\x00' ∉ stage.operator.toList := by
  unfold Stage.operator
  split <;> decide

theorem cleanIff_stage {p : Prop} (h : CleanIff stage.body p) : CleanIff (.document stage.document) p :=
  h.under (nul_notMem_operator stage)

/-- A stage that may be left out or merged is clean. -/
theorem clean_of_isSolid_eq_false (h : stage.isSolid = false) : Clean (.document stage.document) := by
  refine cleanIff_stage ?_
  cases stage with
  | keep =>
      have hempty : Clean (.document (.ofList [])) := clean_ofList nofun
      exact hempty
  | skip | limit => exact ⟨trivial, Iff.rfl⟩
  | filter | group | project | sort => cases h

theorem cleanIff_lowerQuery {query : Document} (hw : e.WellFormed)
    (hplain : ∀ d ∈ e.occurrences, d.kind ≠ .correlated) (hconstants : e.CleanConstants)
    (h : lowerQuery e = .ok query) :
    CleanIff (.document query) (AreNulFreePaths (e.comparedPaths?.getD [])) := by
  have hquery := rel_query? hplain hconstants
  unfold lowerQuery at h
  split at h
  · next q heq =>
      cases h
      rw [heq] at hquery
      generalize e.comparedPaths? = paths at hquery ⊢
      cases hquery with
      | some hclean => exact hclean
  · next heq =>
      obtain ⟨v, hv, h⟩ := bind_eq_ok.1 h
      cases h
      rw [heq] at hquery
      generalize e.comparedPaths? = paths at hquery ⊢
      cases hquery
      exact ((clean_lowerScalar hw hconstants hv).under (by decide)).congr (iff_of_true trivial nofun)

theorem cleanIff_lowerPredicate (hw : e.WellFormed) (hplain : ∀ d ∈ e.occurrences, d.kind ≠ .correlated)
    (hconstants : e.CleanConstants) (h : lowerPredicate e = .ok stage) :
    CleanIff (.document stage.document) (AreNulFreePaths (e.comparedPaths?.getD [])) := by
  unfold lowerPredicate at h
  split at h
  · cases h
    exact (clean_of_isSolid_eq_false rfl).congr (iff_of_true trivial nofun)
  · obtain ⟨query, hquery, h⟩ := bind_eq_ok.1 h
    cases h
    exact cleanIff_stage (cleanIff_lowerQuery hw hplain hconstants hquery)

theorem clean_lowerProjection (hw : e.WellFormed) (hconstants : e.CleanConstants)
    (h : lowerProjection e = .ok stage) : Clean (.document stage.document) := by
  have hid : '\x00' ∉ withoutId.1.toList ∧ Clean withoutId.2 := ⟨by decide, clean_int32 0⟩
  cases e with
  | document i fields =>
      obtain ⟨values, hvalues, h⟩ := bind_eq_ok.1 h
      cases h
      have hclean := (fieldsBecome_of_lowerProjectedFields hvalues).clean fun f hf =>
        ⟨(hw.checked.1 f hf).1, fun v hv => clean_lowerProjected (hw.child (List.mem_map_of_mem hf))
          (hconstants.child (List.mem_map_of_mem hf)) hv⟩
      refine cleanIff_stage (clean_ofList ?_)
      split
      · exact hclean
      · exact List.forall_mem_cons.2 ⟨hid, hclean⟩
  | constant | field | binary | unary | accumulator | correlated | source | filter | group | project | sort | skip
  | limit | extension =>
      obtain ⟨v, hv, h⟩ := bind_eq_ok.1 h
      cases h
      have hname : '\x00' ∉ scalarField.toList := by decide
      exact cleanIff_stage (clean_ofList (List.forall_mem_cons.2
        ⟨hid, List.forall_mem_singleton.2 ⟨hname, clean_lowerProjected hw hconstants hv⟩⟩))

/-- The stage of a pipeline is clean exactly if the paths are that become names in it. -/
theorem cleanIff_ownStage (hw : e.WellFormed) (hplain : ∀ d ∈ e.occurrences, d.kind ≠ .correlated)
    (hconstants : e.CleanConstants) (h : ownStage e = .ok stage) :
    CleanIff (.document stage.document) (AreNulFreePaths e.ownKeyPaths) := by
  cases e with
  | filter i input predicate =>
      have hc : predicate ∈ Expr.children (.filter i input predicate) := List.mem_cons_of_mem _ List.mem_cons_self
      exact cleanIff_lowerPredicate (hw.child hc) (fun d hd => hplain d (Expr.mem_occurrences_of_child hc hd))
        (hconstants.child hc) h
  | group i input key scope outputs =>
      obtain ⟨k, hk, h⟩ := bind_eq_ok.1 h
      obtain ⟨values, hvalues, h⟩ := bind_eq_ok.1 h
      cases h
      have hkey : key ∈ Expr.children (.group i input key scope outputs) := List.mem_cons_of_mem _ List.mem_cons_self
      have houtput {f : String × Expr} (hf : f ∈ outputs) : f.2 ∈ Expr.children (.group i input key scope outputs) :=
        List.mem_cons_of_mem _ (List.mem_cons_of_mem _ (List.mem_map_of_mem hf))
      have hid : '\x00' ∉ "_id".toList := by decide
      refine CleanIff.congr (cleanIff_stage (clean_ofList (List.forall_mem_cons.2 ⟨⟨hid, ?_⟩, ?_⟩)))
        (iff_of_true trivial nofun)
      · exact clean_lowerScalar (hw.child hkey) (hconstants.child hkey) hk
      · exact (fieldsBecome_of_lowerOutputs hvalues).clean fun f hf => ⟨(hw.checked.2.2.2.1 f hf).1, fun v hv =>
          clean_lowerAccumulator (hw.child (houtput hf)) (hconstants.child (houtput hf)) hv⟩
  | project i input projection =>
      have hc : projection ∈ Expr.children (.project i input projection) := List.mem_cons_of_mem _ List.mem_cons_self
      exact (clean_lowerProjection (hw.child hc) (hconstants.child hc) h).congr (iff_of_true trivial nofun)
  | sort i input keys =>
      cases h
      refine cleanIff_stage ((cleanIff_ofList (List.forall_mem_map.2 fun key _ => clean_int32 _)).congr ?_)
      show _ ↔ ∀ path ∈ keys.map SortKey.path, '\x00' ∉ path.toList
      rw [List.forall_mem_map, List.forall_mem_map]
      rfl
  | skip | limit =>
      cases h
      exact (clean_of_isSolid_eq_false rfl).congr (iff_of_true trivial nofun)
  | constant | field | binary | unary | document | accumulator | correlated | source | extension => cases h

/-- The stages of a pipeline are clean exactly if the paths are that become names in them. -/
theorem cleanIff_lower (hw : e.WellFormed) (hplain : ∀ d ∈ e.occurrences, d.kind ≠ .correlated)
    (hconstants : e.CleanConstants) (h : lower e = .ok (collection, stages)) :
    CleanIff (.array (stages.map fun s => .document s.document)) (AreNulFreePaths e.keyPaths) := by
  induction e using Expr.induction_children generalizing stages with
  | step e ih =>
      obtain ⟨i, rfl, rfl⟩ | ⟨input, before, stage, hinput, hchain, hbefore, hstage, rfl⟩ := exists_of_lower h
      · exact clean_nil.congr (iff_of_true trivial nofun)
      have hc := List.mem_of_getElem? hinput
      have hrest := ih input hc (hw.child hc) (fun d hd => hplain d (Expr.mem_occurrences_of_child hc hd))
        (hconstants.child hc) hbefore
      have hown := cleanIff_ownStage hw hplain hconstants hstage
      rw [List.map_append, Expr.keyPaths, hchain, List.flatMap_cons]
      refine (hrest.append hown.item).congr ?_
      rw [and_comm]
      exact List.forall_mem_append.symm

end Stages

end Lowering

end Aggregation
