import Aggregation.Proofs.Compile.Summary

/-!
The projections that are sent. The body of each makes of every row a document with the fields of the projection and no
others, down through the documents in it, or with one field if the projection is no document. A projection without
fields is the exception: nothing is left in its body but that the key is left out, and that keeps all other fields.
-/

namespace Aggregation

namespace Expr

mutual

/-- Whether a value has the fields of a document in their order, and its fields again have those of documents in it. Of
any other scalar every value does. -/
def Outlines : Expr → Value → Prop
  | .document _ fields, .document ⟨entries⟩ => OutlinesFields fields entries
  | .document _ _, _ => False
  | _, _ => True

def OutlinesFields : List (String × Expr) → List (String × Value) → Prop
  | [], [] => True
  | (name, e) :: fields, (key, v) :: entries => name = key ∧ Outlines e v ∧ OutlinesFields fields entries
  | _, _ => False

end

variable {e : Expr} {v : Value} {fields : List (String × Expr)} {entries : List (String × Value)}

theorem outlines_of_kind_ne (h : e.kind ≠ .document) : e.Outlines v := by
  cases e with
  | document => exact absurd rfl h
  | constant | field | binary | unary | accumulator | correlated | source | filter | group | project | sort | skip
  | limit | extension => trivial

theorem OutlinesFields.keys_eq (h : OutlinesFields fields entries) : entries.map Prod.fst = fields.map Prod.fst := by
  induction fields generalizing entries with
  | nil =>
      cases entries with
      | nil => rfl
      | cons => cases h
  | cons f rest ih =>
      cases entries with
      | nil => cases h
      | cons entry entries =>
          obtain ⟨hname, -, hrest⟩ := h
          exact congrArg₂ List.cons hname.symm (ih hrest)

/-- Fields have the values of other nodes under the names that they had. -/
theorem outlinesFields_zip {I : Interpretation} {members : List Document} {row : Document} {children : List Expr}
    (hlength : (fields.map Prod.snd).length = children.length)
    (h : ∀ {c c'}, (c, c') ∈ (fields.map Prod.snd).zip children → c.Outlines (c'.value I members row)) :
    OutlinesFields fields (fieldValues I members row ((fields.map Prod.fst).zip children)) := by
  induction fields generalizing children with
  | nil => trivial
  | cons f rest ih =>
      cases children with
      | nil => cases hlength
      | cons c children =>
          exact ⟨rfl, h List.mem_cons_self, ih (Nat.succ.inj hlength) fun hmem => h (List.mem_cons_of_mem _ hmem)⟩

/-- The projection of a node that projects. -/
def projection? : Expr → Option Expr
  | .project _ _ projection => some projection
  | _ => none

/-- What a body makes of rows, if it is that of a projection. -/
def Projects (projection : Expr) (body : Document) : Prop :=
  ∀ (I : Interpretation) (row : Document), match projection with
    | .document _ [] => Reading.project I body.entries row = ⟨row.entries.filter fun f => f.1 != "_id"⟩
    | .document _ fields => (Reading.project I body.entries row).keys = fields.map Prod.fst ∧
        projection.Outlines (.document (Reading.project I body.entries row))
    | _ => ∃ v, Reading.project I body.entries row = .single "__value" v

end Expr

/-- The body of a projection. -/
def Stage.projectBody? : Stage → Option Document
  | .project body => some body
  | _ => none

namespace Replaced

variable {root e e' : Expr} {up : List Expr}

theorem outlines_value (I : Interpretation) (members : List Document) (row : Document) (h : Replaced root up e e') :
    e.Outlines (e'.value I members row) := by
  induction h with
  | correlated | filter | group | project => exact Expr.outlines_of_kind_ne (by simp [Expr.kind])
  | @kept up e hkind n children hlength _ ih =>
      cases e with
      | document i fields => exact Expr.outlinesFields_zip hlength fun hmem => ih hmem
      | constant | field | binary | unary | accumulator | correlated | source | filter | group | project | sort | skip
      | limit | extension => exact Expr.outlines_of_kind_ne (by simp [Expr.kind])

/-- The body that is made of a new projection projects as the old one says. -/
theorem projects {projection projection' : Expr} {stage : Stage} (h : Replaced root up projection projection')
    (hw : projection'.WellFormed) (hstage : Lowering.lowerProjection projection' = .ok stage) :
    ∃ body, stage = .project body ∧ projection.Projects body := by
  by_cases hkind : projection.kind = .document
  · obtain ⟨i, fields, rfl⟩ : ∃ i fields, projection = .document i fields := by
      cases projection with
      | document i fields => exact ⟨i, fields, rfl⟩
      | constant | field | binary | unary | accumulator | correlated | source | filter | group | project | sort | skip
      | limit | extension => cases hkind
    have houtlines := h.outlines_value
    cases h with
    | @kept _ _ _ n children hlength =>
        cases fields with
        | nil =>
            cases hstage
            exact ⟨_, rfl, fun I row => Lowering.project_withoutId row⟩
        | cons f rest =>
            have hne : ((f :: rest).map Prod.fst).zip children ≠ [] := by
              obtain ⟨c, children, rfl⟩ := List.exists_cons_of_length_eq_add_one hlength.symm
              exact List.cons_ne_nil _ _
            obtain ⟨body, rfl, hproject⟩ := Lowering.exists_body_of_lowerProjection hne hw.wellNamed hstage
            refine ⟨body, rfl, fun I row => ?_⟩
            have hfields := houtlines I [] row
            rw [hproject I [] row]
            exact ⟨hfields.keys_eq, hfields⟩
  · have hkind' : projection'.kind ≠ .document := by
      by_cases htied : projection.kind = .correlated
      · rw [h.kind_eq_field htied]
        decide
      · rwa [h.kind_eq htied]
    obtain ⟨body, rfl, hproject⟩ := Lowering.exists_body_of_lowerProjection_scalar hkind' hw.wellNamed hstage
    refine ⟨body, rfl, fun I row => ?_⟩
    cases projection with
    | document => exact absurd rfl hkind
    | constant | field | binary | unary | accumulator | correlated | source | filter | group | project | sort | skip
    | limit | extension => exact ⟨_, hproject I [] row⟩

/-- The stage of a projection is made of what the projection has become, and no other stage is a projection. -/
theorem rel_projectBody? {stage : Stage} (h : Replaced root up e e') (hw : e'.WellFormed)
    (hstage : Lowering.ownStage e' = .ok stage) :
    Option.Rel Expr.Projects e.projection? stage.projectBody? := by
  have hnone (hkind : stage.operator ≠ "$project") : stage.projectBody? = none := by
    cases stage with
    | project => exact absurd rfl hkind
    | filter | keep | group | sort | skip | limit => rfl
  rw [Lowering.operator_ownStage hstage] at hnone
  cases h with
  | correlated => cases hstage
  | project i n hinput hprojection =>
      obtain ⟨body, rfl, hprojects⟩ :=
        hprojection.projects (hw.child (List.mem_cons_of_mem _ List.mem_cons_self)) hstage
      exact .some hprojects
  | filter | group =>
      rw [hnone (by simp [Expr.kind, NodeKind.stageOperator])]
      exact .none
  | @kept _ _ hkind n children hlength =>
      rw [kind_withChildren] at hnone
      cases e with
      | correlated | filter | group | project => exact absurd (by simp [Expr.kind]) hkind
      | constant | field | binary | unary | document | accumulator | source | sort | skip | limit | extension =>
          rw [hnone (by simp [Expr.kind, NodeKind.stageOperator])]
          exact .none

end Replaced

variable {config : Config} {id : String} {root : Expr} {s : Supply} {c : Compilation} {held : List Expr}

/-- Every projection of a tree that compiles is sent, in the order of the pipelines, with a body that makes of every row
a document with exactly the fields of the projection, in their order, or with the one field of a projection that is no
document; unless the projection is a document without fields, of which every row becomes itself without its key. -/
theorem projections_exact (hheld : Build.Held s held) (hroot : root ∈ held)
    (h : (compile config id root s).result = .ok c) :
    List.Forall₂ Expr.Projects (root.spine.filterMap Expr.projection?)
      (c.pipeline.stages.filterMap Stage.projectBody?) := by
  refine forall₂_bodies hheld hroot h (fun stage hloose => ?_) fun {up d d' stage} hd hw hstage =>
    hd.rel_projectBody? hw hstage
  cases stage with
  | keep | skip | limit => rfl
  | filter | group | project | sort => cases hloose

/-- The places of orders, under keys of their own. -/
def places : Query :=
  ⟨"orders", [.project ⟨[("place", .ofMembers [("document", .ofMembers [("region", Query.typed "region" "string"),
    ("first", .bool true)])]), ("_id", Query.typed "number" "int32")]⟩]⟩

/-- A projection with a key of its own and a document in it. -/
theorem projections_exact_places : ∃ root s held c projection body, Build.Held s held ∧ root ∈ held ∧
    (compile {} "" root s).result = .ok c ∧ root.spine.filterMap Expr.projection? = [projection] ∧
    c.pipeline.stages.filterMap Stage.projectBody? = [body] ∧
    body = ⟨[("place", .document ⟨[
      ("region", .string "$region"), ("first", .document (.single "$literal" (.boolean true)))]⟩),
      ("_id", .string "$number")]⟩ ∧ projection.Projects body := by
  obtain ⟨root, s, c, hbuild, hcompile, hcheck⟩ := exists_compiled (x := places.build)
    (p := fun _ c => decide (c.pipeline.stages.filterMap Stage.projectBody? = [⟨[("place", .document ⟨[
      ("region", .string "$region"), ("first", .document (.single "$literal" (.boolean true)))]⟩),
      ("_id", .string "$number")]⟩])) (by decide +kernel)
  obtain ⟨held, hheld, hroot⟩ := Query.exists_held_of_build hbuild
  have hbodies := of_decide_eq_true hcheck
  have hexact := projections_exact hheld hroot hcompile
  rw [hbodies] at hexact
  obtain ⟨projection, rest, hprojects, hrest, heq⟩ := List.forall₂_cons_right_iff.1 hexact
  cases hrest
  exact ⟨root, s, held, c, projection, _, hheld, hroot, hcompile, heq, hbodies, rfl, hprojects⟩

/-- Nothing of orders. -/
def nothingOfOrders : Query := ⟨"orders", [.project ⟨[]⟩]⟩

/-- Whether a node is a document without fields. -/
def Expr.isEmptyDocument : Expr → Bool
  | .document _ [] => true
  | _ => false

/-- A projection without fields keeps every field but the key. -/
theorem projections_exact_nothingOfOrders_ne : ∃ root s held c i body, Build.Held s held ∧ root ∈ held ∧
    (compile {} "" root s).result = .ok c ∧ root.spine.filterMap Expr.projection? = [.document i []] ∧
    c.pipeline.stages = [.project body] ∧ body = ⟨[("_id", .int32 0)]⟩ ∧
    Reading.project .plain body.entries ⟨[("_id", .int32 1), ("region", .string "north")]⟩
      = ⟨[("region", .string "north")]⟩ := by
  obtain ⟨root, s, c, hbuild, hcompile, hcheck⟩ := exists_compiled (x := nothingOfOrders.build)
    (p := fun root c => (root.spine.filterMap Expr.projection?).map Expr.isEmptyDocument == [true] &&
      decide (c.pipeline.stages = [.project ⟨[("_id", .int32 0)]⟩])) (by decide +kernel)
  obtain ⟨hempty, hstages⟩ := (Bool.and_eq_true _ _).mp hcheck
  obtain ⟨held, hheld, hroot⟩ := Query.exists_held_of_build hbuild
  obtain ⟨projection, rest, heq, hprojection, hrest⟩ := List.map_eq_cons_iff.1 (beq_iff_eq.1 hempty)
  obtain ⟨i, rfl⟩ : ∃ i, projection = .document i [] := by
    unfold Expr.isEmptyDocument at hprojection
    split at hprojection
    · exact ⟨_, rfl⟩
    · cases hprojection
  rw [List.map_eq_nil_iff.1 hrest] at heq
  exact ⟨root, s, held, c, i, _, hheld, hroot, hcompile, heq, of_decide_eq_true hstages, rfl, by decide +kernel⟩

end Aggregation
