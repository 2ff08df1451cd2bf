import Aggregation.Proofs.Pipeline.Elimination
import Aggregation.Proofs.Pipeline.Predicates
import Aggregation.Proofs.Plan.Scalars
import Aggregation.Proofs.Query.Steps

/-!
The stages of a bound pipeline do what the steps of its query do, step by step.
-/

namespace Aggregation.Query

open Binding (AreOutputNames Bound)
open Aggregation.Expr (Scalar)
open Lowering (lower)

variable {I : Interpretation} {root input e : Expr} {plans : List GroupPlan} {rows out : List Document}

/-- The stages of a pipeline, once it is bound, make some documents of others. -/
def Makes (I : Interpretation) (root : Expr) (plans : List GroupPlan) (rows : List Document) (e : Expr)
    (out : List Document) : Prop :=
  ∀ e' collection stages, Bound root plans e e' → lower e' = .ok (collection, stages) →
    Pipeline.run I stages rows = some out

/-- No path begins with the name of an output. -/
def IsClear (plans : List GroupPlan) (path : String) : Prop :=
  ∀ p ∈ plans, ∀ name ∈ p.names, (segments path).head? ≠ some name

section Scalars

variable {r : Resolver} {s t : Supply} {x : Term} {e' : Expr}

/-- Outside of groupings a scalar has no accumulator, and the key of a group is not mentioned. -/
theorem Stands.bound_outside (h : Stands ⟨r, none⟩ x s t e) (hb : Bound root plans e e') :
    Scalar (fun _ => False) (fun _ => True) e' ∧
      ∀ members row, e'.value I members row = x.value I (fun _ => .null) members row := by
  have hs : Scalar (fun _ => False) (fun _ => True) e :=
    (h.scalar (fun _ => True) trivial fun _ _ => trivial).mono (fun _ ⟨_, heq⟩ => nomatch heq) fun _ hok => hok
  refine ⟨hb.scalar hs fun _ _ hfalse => hfalse.elim, fun members row => ?_⟩
  calc e'.value I members row
      = e.value I members row := hb.value_eq hs (fun _ _ => rfl) fun _ _ hfalse => hfalse.elim
    _ = x.value I (fun _ => .null) members row := h.value I _ members row fun hne => absurd rfl hne

/-- What is kept and selected of a group has on the document of the group its value over the rows of the group. -/
theorem Stands.bound_inside {scope : Scope} {type : ResultType} {p : GroupPlan}
    (h : Stands ⟨r, some (scope, type)⟩ x s t e) (hplans : (plans.map GroupPlan.scope).Nodup) (hp : p ∈ plans)
    (hscope : p.scope = scope) (hnames : AreOutputNames p.outputs) (hclear : ∀ path ∈ x.paths, IsClear plans path)
    (hb : Bound root plans e e') :
    Scalar (fun _ => False) (fun _ => True) e' ∧ ∀ key members members',
      e'.value I members' (Expr.groupRow I p.outputs key members) = x.value I (rowKey I key) members (keyRow key) := by
  -- the paths of the term begin with no output, and neither does `_id`, as which the key is read
  have hs := h.scalar (fun path => ∀ first ∈ (segments path).head?, first ∉ p.names) ?_ ?_
  · have htied : ∀ sc, Surrounding ⟨r, some (scope, type)⟩ sc → sc = p.scope := by
      rintro sc ⟨type', heq⟩
      cases heq
      exact hscope.symm
    refine ⟨hb.scalar hs fun q hq hsc => ?_, fun key members members' => ?_⟩
    · rw [List.inj_on_of_nodup_map hplans hq hp (htied _ hsc)]
      exact hnames.1
    · calc e'.value I members' (Expr.groupRow I p.outputs key members)
          = e.value I members (keyRow key) := hb.value_groupRow hs hplans hp htied hnames fun _ hok => hok
        _ = x.value I (rowKey I key) members (keyRow key) := h.value I _ members _ fun _ _ => rfl
  · intro first hfirst hmem
    rw [Interpretation.segments_name (by decide)] at hfirst
    cases hfirst
    exact (List.nodup_cons.1 hnames.2).1 hmem
  · intro path hpath first hfirst hmem
    exact hclear path hpath p hp first hmem hfirst

end Scalars

section Steps

theorem run_append_singleton {stages : List Stage} {stage : Stage} {out' : List Document}
    (h : Pipeline.run I stages rows = some out) (hstage : Reading.runStage I stage.document out = some out') :
    Pipeline.run I (stages ++ [stage]) rows = some out' := by
  rw [Pipeline.run_append, h]
  exact (Pipeline.run_singleton stage).trans hstage

theorem makes_filter {i : NodeInfo} {r : Resolver} {s t : Supply} {predicate : Json}
    (h : Stands ⟨r, none⟩ (term predicate) s t e) (hinput : Makes I root plans rows input out) :
    Makes I root plans rows (.filter i input e)
      (out.filter fun row => I.truth ((term predicate).value I (fun _ => .null) [] row)) := by
  intro e' collection stages hb hlower
  obtain ⟨j, input', e', rfl, hbinput, hbe⟩ := hb.exists_withTwoChildren nofun nofun rfl
  obtain ⟨⟨coll, before⟩, hbefore, hlower⟩ := bind_eq_ok.1 hlower
  obtain ⟨stage, hstage, hlower⟩ := bind_eq_ok.1 hlower
  cases hlower
  obtain ⟨hs, hvalue⟩ := h.bound_outside (I := I) hbe
  refine run_append_singleton (hinput _ _ _ hbinput hbefore) ?_
  rw [Predicate.runStage_lowerPredicate [] hs hstage]
  simp only [hvalue]

/-- A node over one pipeline that becomes one more stage. -/
theorem makes_stage {stage : Stage} {out' : List Document} (hc : e.kind ≠ .correlated) (hg : e.kind ≠ .group)
    (hchildren : e.children = [input]) (hinput : Makes I root plans rows input out)
    (hlowers : ∀ i input', lower (e.withChildren i [input']) = (do
      let (collection, stages) ← lower input'
      return (collection, stages ++ [stage])))
    (hstage : out.length ≤ rows.length → Reading.runStage I stage.document out = some out') :
    Makes I root plans rows e out' := by
  intro e' collection stages hb hlower
  obtain ⟨j, input', rfl, hbinput⟩ := hb.exists_withChild hc hg hchildren
  rw [hlowers] at hlower
  obtain ⟨⟨coll, before⟩, hbefore, hlower⟩ := bind_eq_ok.1 hlower
  cases hlower
  have hrun := hinput _ _ _ hbinput hbefore
  apply run_append_singleton hrun
  exact hstage (Pipeline.length_le_of_run hrun)

theorem makes_sort {i : NodeInfo} {keys : List SortKey} (hkeys : (keys.map SortKey.path).Nodup)
    (hinput : Makes I root plans rows input out) :
    Makes I root plans rows (.sort i input keys) (I.order keys out) := by
  refine makes_stage nofun nofun rfl hinput (fun _ _ => rfl) fun _ => ?_
  exact Lowering.runStage_sort hkeys out

theorem makes_skip {i : NodeInfo} {count : Nat} (hrows : rows.length < 2 ^ 63)
    (hinput : Makes I root plans rows input out) :
    Makes I root plans rows (.skip i input count) (out.drop count) := by
  refine makes_stage nofun nofun rfl hinput (fun _ _ => rfl) fun hle => ?_
  exact Lowering.runStage_skip count (Nat.lt_of_le_of_lt hle hrows)

theorem makes_limit {i : NodeInfo} {count : Nat} (hcount : count ≠ 0) (hrows : rows.length < 2 ^ 63)
    (hinput : Makes I root plans rows input out) :
    Makes I root plans rows (.limit i input count) (out.take count) := by
  refine makes_stage nofun nofun rfl hinput (fun _ _ => rfl) fun hle => ?_
  rw [Lowering.runStage_limit count (Nat.lt_of_le_of_lt hle hrows), if_neg hcount]

section Documents

variable {c : Surroundings} {s t : Supply} {xs : List (String × Term)} {k : NodeInfo} {fs : List (String × Expr)}

theorem Stands.fieldValues_eq (h : Stands c (.document xs) s t (.document k fs)) {key : Document → Value}
    (hkey : ReadsKey c I key) (members : List Document) (row : Document) :
    Expr.fieldValues I members row fs = Term.fieldValues I key members row xs := by
  have hvalue := h.value I key members row hkey
  rw [Expr.value, Term.value] at hvalue
  exact Record.mk.inj (Value.document.inj hvalue)

theorem Stands.fields_ne_nil (I : Interpretation) (h : Stands c (.document xs) s t (.document k fs)) (hne : xs ≠ []) :
    fs ≠ [] := by
  rintro rfl
  have hreads : ReadsKey c I fun row => I.lookup row "_id" := fun _ _ => rfl
  have heq := h.fieldValues_eq hreads [] .empty
  cases xs with
  | nil => exact hne rfl
  | cons x rest => cases heq

theorem fieldTerms_ne_nil {fields : List (String × Json)} (h : fields ≠ []) : fieldTerms fields ≠ [] := by
  cases fields with
  | nil => exact absurd rfl h
  | cons f rest => exact nofun

theorem makes_project {i : NodeInfo} {r : Resolver} {fields : Record Json}
    (h : Stands ⟨r, none⟩ (.document (fieldTerms fields.entries)) s t (.document k fs)) (hne : fields.entries ≠ [])
    (hinput : Makes I root plans rows input out) :
    Makes I root plans rows (.project i input (.document k fs))
      (out.map fun row => ⟨Term.fieldValues I (fun _ => .null) [] row (fieldTerms fields.entries)⟩) := by
  intro e' collection stages hb hlower
  obtain ⟨j, input', d', rfl, hbinput, hbd⟩ := hb.exists_withTwoChildren nofun nofun rfl
  obtain ⟨⟨coll, before⟩, hbefore, hlower⟩ := bind_eq_ok.1 hlower
  obtain ⟨stage, hstage, hlower⟩ := bind_eq_ok.1 hlower
  cases hlower
  obtain ⟨hs, hvalue⟩ := h.bound_outside (I := I) hbd
  obtain ⟨k', fs', rfl, hfields⟩ := hbd.exists_document
  have hne' : fs' ≠ [] := by
    rintro rfl
    exact h.fields_ne_nil I (fieldTerms_ne_nil hne) (List.forall₂_nil_right_iff.1 hfields)
  refine run_append_singleton (hinput _ _ _ hbinput hbefore) ?_
  rw [Lowering.runStage_lowerProjection [] hne' hs hstage]
  refine congrArg some (List.map_congr_left fun row _ => congrArg Record.mk ?_)
  have hrow := hvalue [] row
  rw [Expr.value, Term.value] at hrow
  exact Record.mk.inj (Value.document.inj hrow)

end Documents

section Groups

variable {r : Resolver} {scope : Scope} {type : ResultType} {s t : Supply} {j : NodeInfo} {key : Json}
  {keyExpr kept : Expr} {having : Option Json}

/-- The groups of rows by the key of a grouping. -/
def groupsBy (I : Interpretation) (key : Json) (rows : List Document) : List (Value × List Document) :=
  I.groups (fun row => (term key).value I (fun _ => .null) [] row) rows

/-- The stages of a bound group make the documents of its groups. -/
theorem run_group {g' : Expr} {collection : String} {stages : List Stage} (hscalars : HasScalars root)
    (hkey : Stands ⟨r, none⟩ (term key) s t keyExpr) (hinput : Makes I root plans rows input out)
    (hb : Bound root plans (.group j input keyExpr scope []) g') (hlower : lower g' = .ok (collection, stages)) :
    ∃ p ∈ plans, p.scope = scope ∧ AreOutputNames p.outputs ∧
      Pipeline.run I stages rows = some ((groupsBy I key out).map fun (k, members) =>
        Expr.groupRow I p.outputs k members) := by
  cases hb with
  | kept _ hg => exact absurd rfl hg
  | @group _ j' _ input' _ key' _ _ p hp hfits hbinput hbkey =>
      obtain ⟨⟨coll, before⟩, hbefore, hlower⟩ := bind_eq_ok.1 hlower
      obtain ⟨k, hk, hlower⟩ := bind_eq_ok.1 hlower
      obtain ⟨values, hvalues, hlower⟩ := bind_eq_ok.1 hlower
      cases hlower
      obtain ⟨hs, hvalue⟩ := hkey.bound_outside (I := I) hbkey
      have houtputs : ∀ f ∈ p.outputs, ∃ i sc, Scalar (fun _ => True) (fun _ => True) (.correlated i sc f.2) := by
        obtain ⟨new, hnew, hvisible⟩ := hfits.outputs
        intro f hf
        obtain ⟨i, hmem⟩ := hvisible f (by rwa [hnew] at hf)
        exact ⟨i, scope, hscalars i scope f.2 hmem⟩
      refine ⟨p, hp, hfits.scope_eq, hfits.areOutputNames, run_append_singleton (hinput _ _ _ hbinput hbefore) ?_⟩
      rw [Lowering.runStage_group (hs.mono (fun _ hfalse => hfalse.elim) fun _ hok => hok) houtputs
        hfits.areOutputNames.2 hk hvalues]
      simp only [hvalue]
      rfl

/-- The groups that a grouping keeps. -/
def keptGroups (I : Interpretation) (having : Option Json) (groups : List (Value × List Document)) :
    List (Value × List Document) :=
  groups.filter fun (k, members) =>
    having.all fun predicate => I.truth ((term predicate).value I (rowKey I k) members (keyRow k))

/-- The stages of a bound group and of the predicate after it make the documents of the groups that are kept. -/
theorem run_kept {kept' : Expr} {collection : String} {stages : List Stage} (hscalars : HasScalars root)
    (hplans : (plans.map GroupPlan.scope).Nodup)
    (hclear : ∀ predicate ∈ having, ∀ path ∈ (term predicate).paths, IsClear plans path)
    (hkey : Stands ⟨r, none⟩ (term key) s t keyExpr) (hinput : Makes I root plans rows input out)
    (hkept : Kept ⟨r, some (scope, type)⟩ (.group j input keyExpr scope []) having kept)
    (hb : Bound root plans kept kept') (hlower : lower kept' = .ok (collection, stages)) :
    ∃ p ∈ plans, p.scope = scope ∧ AreOutputNames p.outputs ∧
      Pipeline.run I stages rows = some ((keptGroups I having (groupsBy I key out)).map fun (k, members) =>
        Expr.groupRow I p.outputs k members) := by
  cases hkept with
  | all =>
      obtain ⟨p, hp, hscope, hnames, hrun⟩ := run_group hscalars hkey hinput hb hlower
      have hall : keptGroups I none (groupsBy I key out) = groupsBy I key out := List.filter_eq_self.2 fun _ _ => rfl
      refine ⟨p, hp, hscope, hnames, ?_⟩
      rw [hrun, hall]
  | @having i _ _ predicate e h =>
      obtain ⟨j', grouped', e', rfl, hbgroup, hbe⟩ := hb.exists_withTwoChildren nofun nofun rfl
      obtain ⟨⟨coll, before⟩, hbefore, hlower⟩ := bind_eq_ok.1 hlower
      obtain ⟨stage, hstage, hlower⟩ := bind_eq_ok.1 hlower
      cases hlower
      obtain ⟨p, hp, hscope, hnames, hrun⟩ := run_group hscalars hkey hinput hbgroup hbefore
      obtain ⟨hs, hvalue⟩ := h.bound_inside (I := I) hplans hp hscope hnames (hclear predicate rfl) hbe
      refine ⟨p, hp, hscope, hnames, run_append_singleton hrun ?_⟩
      rw [Predicate.runStage_lowerPredicate [] hs hstage, List.filter_map]
      refine congrArg some (congrArg _ (List.filter_congr fun group _ => ?_))
      obtain ⟨k, members⟩ := group
      exact congrArg I.truth (hvalue k members [])

/-- The stages of a bound grouping make what the grouping selects of the groups that it keeps. -/
theorem makes_group {i k : NodeInfo} {select : Record Json} {fs : List (String × Expr)} {s' t' : Supply}
    (hscalars : HasScalars root) (hplans : (plans.map GroupPlan.scope).Nodup)
    (hclear : ∀ path ∈ (Step.group key having select).terms.flatMap Term.paths, IsClear plans path)
    (hselect : select.entries ≠ []) (hkey : Stands ⟨r, none⟩ (term key) s t keyExpr)
    (hinput : Makes I root plans rows input out)
    (hkept : Kept ⟨r, some (scope, type)⟩ (.group j input keyExpr scope []) having kept)
    (hfields : Stands ⟨r, some (scope, type)⟩ (.document (fieldTerms select.entries)) s' t' (.document k fs)) :
    Makes I root plans rows (.project i kept (.document k fs))
      ((Step.group key having select).run I (rowKey I) out) := by
  have hclear' : ∀ x ∈ (Step.group key having select).terms, ∀ path ∈ x.paths, IsClear plans path :=
    fun x hx path hpath => hclear path (List.mem_flatMap.2 ⟨x, hx, hpath⟩)
  intro e' collection stages hb hlower
  obtain ⟨j', kept', d', rfl, hbkept, hbd⟩ := hb.exists_withTwoChildren nofun nofun rfl
  obtain ⟨⟨coll, before⟩, hbefore, hlower⟩ := bind_eq_ok.1 hlower
  obtain ⟨stage, hstage, hlower⟩ := bind_eq_ok.1 hlower
  cases hlower
  have hhaving : ∀ predicate ∈ having, ∀ path ∈ (term predicate).paths, IsClear plans path := by
    intro predicate hpredicate
    refine hclear' _ (List.mem_append_left _ (List.mem_cons_of_mem _ (List.mem_map.2 ⟨predicate, ?_, rfl⟩)))
    exact Option.mem_toList.2 hpredicate
  have hpaths : ∀ path ∈ (Term.document (fieldTerms select.entries)).paths, IsClear plans path := by
    intro path hpath
    rw [Term.paths, Term.fieldPaths_eq_flatMap] at hpath
    obtain ⟨x, hx, hpath⟩ := List.mem_flatMap.1 hpath
    exact hclear' x (List.mem_append_right _ hx) path hpath
  obtain ⟨p, hp, hscope, hnames, hrun⟩ := run_kept hscalars hplans hhaving hkey hinput hkept hbkept hbefore
  obtain ⟨hs, hvalue⟩ := hfields.bound_inside (I := I) hplans hp hscope hnames hpaths hbd
  obtain ⟨k', fs', rfl, hbfields⟩ := hbd.exists_document
  have hne : fs' ≠ [] := by
    rintro rfl
    exact hfields.fields_ne_nil I (fieldTerms_ne_nil hselect) (List.forall₂_nil_right_iff.1 hbfields)
  refine run_append_singleton hrun ?_
  rw [Lowering.runStage_lowerProjection [] hne hs hstage, List.map_map]
  refine congrArg some (List.map_congr_left fun group _ => congrArg Record.mk ?_)
  obtain ⟨k, members⟩ := group
  have hrow := hvalue k members []
  rw [Expr.value, Term.value] at hrow
  exact Record.mk.inj (Value.document.inj hrow)

end Groups

/-- The stages of a step do what the step does. -/
theorem Follows.makes {st : Step} (hscalars : HasScalars root) (hplans : (plans.map GroupPlan.scope).Nodup)
    (hrows : rows.length < 2 ^ 63) (hclear : ∀ path ∈ st.terms.flatMap Term.paths, IsClear plans path)
    (hnames : st.NamesFields) (h : Follows st input e) (hinput : Makes I root plans rows input out) :
    Makes I root plans rows e (st.run I (rowKey I) out) := by
  cases h with
  | filter i h => exact makes_filter h hinput
  | group i j hselect hkey hkept hfields =>
      exact makes_group hscalars hplans hclear hselect hkey hinput hkept hfields
  | project i h => exact makes_project h hnames hinput
  | sort i keys => exact makes_sort hnames hinput
  | skip i count => exact makes_skip hrows hinput
  | limit i hcount => exact makes_limit hcount hrows hinput

/-- The stages of steps in turn do what the steps do. -/
theorem AllFollow.makes {steps : List Step} (hscalars : HasScalars root) (hplans : (plans.map GroupPlan.scope).Nodup)
    (hrows : rows.length < 2 ^ 63)
    (hclear : ∀ path ∈ steps.flatMap fun st => st.terms.flatMap Term.paths, IsClear plans path)
    (hnames : ∀ st ∈ steps, st.NamesFields) (h : AllFollow steps input e) (hinput : Makes I root plans rows input out) :
    Makes I root plans rows e (steps.foldl (fun rows st => st.run I (rowKey I) rows) out) := by
  induction h generalizing out with
  | nil => exact hinput
  | cons hfollows _ ih =>
      rw [List.flatMap_cons] at hclear
      obtain ⟨hfirst, hrest⟩ := List.forall_mem_append.1 hclear
      obtain ⟨hname, hnames⟩ := List.forall_mem_cons.1 hnames
      exact ih hrest hnames (hfollows.makes hscalars hplans hrows hfirst hname hinput)

end Steps

end Aggregation.Query
