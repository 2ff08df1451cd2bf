import Aggregation.Proofs.Pipeline.Relabel
import Aggregation.Proofs.Plan.Readers
import Aggregation.Proofs.Query.Acceptance

/-!
What the fields read that stand for accumulators. Where a stage reads documents that the group of the scope has made,
each of them has the value of the accumulator over the documents of its group. Behind a projection or another group
nothing of it need be left.
-/

namespace Aggregation

namespace Pipeline

/-- After some stages a name stands for an output of a group among them: every document is that of a group of the
documents which came to that stage, and has under the name what an accumulator computes from the documents of its
group. -/
def Shows (upto : List Stage) (spec : Document) (name : String) (accumulated : Value) : Prop :=
  ∃ below between key, upto = below ++ .group spec :: between ∧ spec.get? "_id" = some key ∧
    spec.get? name = some accumulated ∧
    ∀ (I : Interpretation) (rows read : List Document), rows.length < 2 ^ 63 → run I upto rows = some read →
      ∃ entering, run I below rows = some entering ∧ ∀ row ∈ read, ∃ k members,
        (k, members) ∈ I.groups (fun row => Reading.expression I row key) entering ∧
          I.lookup row name = Reading.output I members accumulated

variable {I : Interpretation} {rows entering read : List Document} {key accumulated : Value}
  {values : List (String × Value)} {name : String}

/-- The documents of a group have the values of its outputs under their names. -/
theorem shows_of_group {below between : List Stage} (hdistinct : ("_id" :: values.map Prod.fst).Nodup)
    (hname : (name, accumulated) ∈ values) (hdot : '.' ∉ name.toList) (hbetween : ∀ s ∈ between, s.handsOn = true) :
    Shows (below ++ .group (.ofList (("_id", key) :: values)) :: between) (.ofList (("_id", key) :: values)) name
      accumulated := by
  have hspec : Record.ofList (("_id", key) :: values) = ⟨("_id", key) :: values⟩ := Record.ofList_eq_mk hdistinct
  refine ⟨below, between, key, rfl, ?_, ?_, fun I rows read _ hrun => ?_⟩
  · rw [hspec]
    rfl
  · rw [hspec]
    exact Record.get?_of_mem hdistinct (List.mem_cons_of_mem _ hname)
  · rw [run_append] at hrun
    obtain ⟨entering, hentering, hrun⟩ := Option.bind_eq_some_iff.1 hrun
    rw [run_cons, hspec] at hrun
    obtain ⟨made, hmade, hrun⟩ := Option.bind_eq_some_iff.1 hrun
    refine ⟨entering, hentering, fun row hrow => ?_⟩
    cases hmade
    obtain ⟨⟨k, members⟩, hgroup, rfl⟩ := List.mem_map.1 (mem_of_run hbetween hrun row hrow)
    refine ⟨k, members, hgroup, I.lookup_name hdot (Record.get?_of_mem ?_ ?_)⟩
    · show ("_id" :: (values.map _).map Prod.fst).Nodup
      rw [List.map_map]
      exact hdistinct
    · exact List.mem_cons_of_mem _ (List.mem_map.2 ⟨_, hname, rfl⟩)

/-- Nothing that is done to stages before they are sent changes what a name stands for. -/
theorem Tidies.shows {f : List Stage → List Stage} (hf : Tidies f) {upto : List Stage} {spec : Document}
    (h : Shows upto spec name accumulated) : Shows (f upto) spec name accumulated := by
  obtain ⟨below, between, key, rfl, hkey, hname, hruns⟩ := h
  refine ⟨f below, f between, key, hf.split rfl below between, hkey, hname, fun I rows read hrows hrun => ?_⟩
  rw [hf.run_eq I _ hrows] at hrun ⊢
  exact hruns I rows read hrows hrun

end Pipeline

namespace Lowering

theorem FieldsBecome.exists_mem {lower : Expr → Except CompileError Value} {fields : List (String × Expr)}
    {values : List (String × Value)} (h : FieldsBecome lower fields values) {f : String × Expr} (hf : f ∈ fields) :
    ∃ v, (f.1, v) ∈ values ∧ lower f.2 = .ok v := by
  induction h with
  | nil => cases hf
  | @cons d g ds gs hfirst _ ih =>
      rcases List.mem_cons.1 hf with rfl | hf
      · exact ⟨g.2, hfirst.1 ▸ List.mem_cons_self, hfirst.2⟩
      · obtain ⟨v, hmem, hv⟩ := ih hf
        exact ⟨v, List.mem_cons_of_mem _ hmem, hv⟩

/-- An output of the group that has made the documents of a pipeline is what its name stands for in them. -/
theorem shows_of_maker? {e g : Expr} {scope : Scope} {collection : String} {upto : List Stage} {f : String × Expr}
    (hw : g.Checked) (hscope : g.isGroupOf scope = true) (hf : f ∈ g.outputs) (hmaker : e.maker? = some g)
    (h : lower e = .ok (collection, upto)) :
    ∃ spec accumulated, ownStage g = .ok (.group spec) ∧ lowerAccumulator f.2 = .ok accumulated ∧
      Pipeline.Shows upto spec f.1 accumulated := by
  cases g with
  | group i input key scope outputs =>
      obtain ⟨below, stage, between, rfl, hstage, hbetween⟩ := exists_stage_of_maker? hmaker h
      obtain ⟨k, hk, hrest⟩ := bind_eq_ok.1 hstage
      obtain ⟨values, hvalues, hrest⟩ := bind_eq_ok.1 hrest
      cases hrest
      have hbecome := fieldsBecome_of_lowerOutputs hvalues
      obtain ⟨-, -, -, hnames, -⟩ := id hw
      obtain ⟨accumulated, hmem, haccumulated⟩ := hbecome.exists_mem hf
      refine ⟨_, accumulated, hstage, haccumulated, Pipeline.shows_of_group ?_ hmem
        (Binding.not_mem_of_isOutputName (hnames f hf).1) hbetween⟩
      rw [hbecome.map_fst]
      exact hw.nodup_names
  | constant | field | binary | unary | document | accumulator | correlated | source | filter | project | sort | skip
  | limit | extension => cases hscope

/-- The stage of a match or a projection in which a field is read stays. -/
theorem isSolid_of_field {reader : Expr} {stage : Stage} {after : List Nat} {i : NodeInfo} {name : String}
    (hkind : reader.kind = .filter ∨ reader.kind = .project) (hat : reader.at? (1 :: after) = some (.field i name))
    (h : ownStage reader = .ok stage) : stage.isSolid = true := by
  cases reader with
  | filter j input predicate =>
      simp only [ownStage] at h
      unfold lowerPredicate at h
      split at h
      · -- a constant has no field below it
        cases after <;> cases hat
      · obtain ⟨query, -, h⟩ := bind_eq_ok.1 h
        cases h
        rfl
  | project j input projection =>
      simp only [ownStage] at h
      unfold lowerProjection at h
      split at h
      all_goals
        obtain ⟨v, -, h⟩ := bind_eq_ok.1 h
        cases h
        rfl
  | constant | field | binary | unary | document | accumulator | correlated | source | group | sort | skip | limit
  | extension => exact absurd hkind (by simp [Expr.kind])

end Lowering

/-! ## Queries -/

namespace Expr

variable {tied : Scope → Prop} {ok : String → Prop} {e c : Expr} {path : List Nat} {scope : Scope}

/-- Every accumulator that is tied to a scope reads documents that the group of the scope has made. -/
def Direct (e : Expr) : Prop :=
  ∀ path i scope inner, e.at? path = some (.correlated i scope inner) → e.DirectAt path scope

theorem DirectAt.cons {k : Nat} (hc : e.children[k]? = some c) (h : c.DirectAt path scope) :
    e.DirectAt (k :: path) scope := by
  obtain ⟨before, after, d, input, g, rfl, hat, hd⟩ := h
  exact ⟨k :: before, after, d, input, g, rfl, by rw [at?, hc]; exact hat, hd⟩

/-- A node over a direct pipeline is direct, if what it reads from its documents is tied to the group that has made
them. -/
theorem direct_of_children (hkind : e.kind ≠ .correlated) {input : Expr} (hinput : e.children[0]? = some input)
    (hdirect : input.Direct) (hrest : ∀ k d, e.children[k + 1]? = some d → ∀ i scope inner,
      correlated i scope inner ∈ d.occurrences → k = 0 ∧ (e.kind = .filter ∨ e.kind = .project) ∧
        ∃ g, input.maker? = some g ∧ g.isGroupOf scope = true) : e.Direct := by
  intro path i scope inner hat
  rcases path with _ | ⟨_ | k, path⟩
  · cases hat
    exact absurd rfl hkind
  · obtain ⟨c, hc, hbelow⟩ := Option.bind_eq_some_iff.1 hat
    cases hinput.symm.trans hc
    exact (hdirect path i scope inner hbelow).cons hinput
  · obtain ⟨c, hc, hbelow⟩ := Option.bind_eq_some_iff.1 hat
    obtain ⟨rfl, hread, g, hmaker, hg⟩ := hrest k c hc i scope inner (mem_occurrences_of_at? hbelow)
    exact ⟨[], path, e, input, g, rfl, rfl, hread, hinput, hmaker, hg⟩

end Expr

namespace Query

variable {c : Surroundings} {s t : Supply} {x : Term} {input e : Expr} {scope : Scope}

theorem Stands.surrounding (h : Stands c x s t e) (hw : e.WellFormed) {i : NodeInfo} {inner : Expr}
    (hmem : Expr.correlated i scope inner ∈ e.occurrences) : Surrounding c scope :=
  h.exists_scalar.tied_of_mem hw hmem

/-- What stands outside of groupings has no accumulator. -/
theorem Stands.not_mem_outside {r : Resolver} (h : Stands ⟨r, none⟩ x s t e) (hw : e.WellFormed) {i : NodeInfo}
    {inner : Expr} : Expr.correlated i scope inner ∉ e.occurrences :=
  fun hmem => not_surrounding_none scope (h.surrounding hw hmem)

/-- What is kept and selected of a group reads the documents of the group. -/
theorem Follows.direct {st : Step} (h : Follows st input e) (hw : e.WellFormed) (hinput : input.Direct) :
    e.Direct := by
  have hsecond {e c d : Expr} {rest : List Expr} (hw : e.WellFormed) (hchildren : e.children = c :: d :: rest) :
      d.WellFormed := hw.child (hchildren ▸ List.mem_cons_of_mem _ List.mem_cons_self)
  cases h with
  | filter i h | project i h =>
      refine Expr.direct_of_children nofun rfl hinput fun k d hd i scope inner hmem => ?_
      rcases k with _ | k <;> cases hd
      exact absurd hmem (h.not_mem_outside (hsecond hw rfl))
  | sort | skip | limit => exact Expr.direct_of_children nofun rfl hinput nofun
  | @group i j r scope type _ _ _ _ key having select _ keyExpr kept fs hselect hkey hkept k hfields =>
      have hgroup (hw : (Expr.group j input keyExpr scope []).WellFormed) :
          (Expr.group j input keyExpr scope []).Direct := by
        refine Expr.direct_of_children nofun rfl hinput fun k d hd i scope inner hmem => ?_
        rcases k with _ | k <;> cases hd
        exact absurd hmem (hkey.not_mem_outside (hsecond hw rfl))
      have htied {x : Term} {s t : Supply} {e : Expr} (h : Stands ⟨r, some (scope, type)⟩ x s t e) (hw : e.WellFormed)
          {i : NodeInfo} {sc : Scope} {inner : Expr} (hmem : Expr.correlated i sc inner ∈ e.occurrences) :
          (Expr.group j input keyExpr scope []).isGroupOf sc = true := by
        obtain ⟨type', heq⟩ := h.surrounding hw hmem
        cases heq
        exact decide_eq_true rfl
      have hkeptw : kept.WellFormed := hw.child List.mem_cons_self
      have hkeeps : kept.Direct ∧ kept.maker? = some (Expr.group j input keyExpr scope []) := by
        cases hkept with
        | all => exact ⟨hgroup hkeptw, rfl⟩
        | having i h =>
            have hgroupw := hkeptw.child List.mem_cons_self
            refine ⟨Expr.direct_of_children nofun rfl (hgroup hgroupw) fun k d hd i sc inner hmem => ?_, rfl⟩
            rcases k with _ | k <;> cases hd
            exact ⟨rfl, .inl rfl, _, rfl, htied h (hsecond hkeptw rfl) hmem⟩
      refine Expr.direct_of_children nofun rfl hkeeps.1 fun k d hd i sc inner hmem => ?_
      rcases k with _ | k <;> cases hd
      exact ⟨rfl, .inr rfl, _, hkeeps.2, htied hfields (hsecond hw rfl) hmem⟩

theorem AllFollow.direct {steps : List Step} (h : AllFollow steps input e) (hw : e.WellFormed)
    (hinput : input.Direct) : e.Direct := by
  induction h with
  | nil => exact hinput
  | cons hfollows hrest ih =>
      have hnext : Expr.WellFormed _ := fun d hd => hw d (Expr.mem_occurrences_trans hrest.mem_occurrences hd)
      exact ih hw (hfollows.direct hnext hinput)

/-- In the tree of a query every accumulator reads documents that the group of its scope has made. -/
theorem direct_of_build {q : Query} (h : q.build.run s = .ok (e, t)) : e.Direct := by
  obtain ⟨held, hheld, hmem⟩ := exists_held_of_build h
  obtain ⟨⟨i, hfollow⟩, -⟩ := allFollow_of_build h
  refine hfollow.direct (hheld.wellFormed hmem) fun path i scope inner hat => ?_
  cases path <;> cases hat

end Query

/-! ## Compiled trees -/

/-- Stages are sent as they are lowered, or without those that change nothing. -/
theorem exists_tidies {config : Config} {id : String} {root : Expr} {s : Supply} {c : Compilation}
    (h : (compile config id root s).result = .ok c) :
    ∃ planned t collection stages f, (plan config.stem root).run s = .ok (planned, t) ∧
      Lowering.lower planned.root = .ok (collection, stages) ∧ Pipeline.Tidies f ∧ c.pipeline.stages = f stages := by
  obtain ⟨planned, t, collection, stages, hplan, hlower, -, hstages⟩ := Query.compile_eq_ok h
  rcases hstages with hstages | hstages
  · exact ⟨planned, t, collection, stages, fun stages => stages, hplan, hlower, Pipeline.tidies_id, hstages⟩
  · exact ⟨planned, t, collection, stages, _, hplan, hlower, Pipeline.tidies_eliminate, hstages⟩

/-- Where a stage reads documents that the group of a scope has made, the field that stands for an accumulator which is
tied to the scope has its value. In every tree that a caller can make and that compiles, such an accumulator in the
predicate or the projection of a pipeline becomes the field of an output in the stage of that pipeline, and in every
document which comes to that stage the field is what the accumulator computes from a group of the documents that came
to the stage of the group. -/
theorem field_shows_group {config : Config} {id : String} {root : Expr} {s : Supply} {c : Compilation}
    {held : List Expr} (hheld : Build.Held s held) (hroot : root ∈ held)
    (hcompile : (compile config id root s).result = .ok c) {path : List Nat} {i : NodeInfo} {scope : Scope}
    {inner : Expr} (hat : root.at? path = some (.correlated i scope inner)) (hdirect : root.DirectAt path scope) :
    ∃ planned t before after reader g name n, (plan config.stem root).run s = .ok (planned, t) ∧
      path = before ++ 1 :: after ∧ planned.root.at? before = some reader ∧
      planned.root.at? path = some (.field ⟨n, i.type⟩ name) ∧ g ∈ reader.chain ∧ g.isGroupOf scope = true ∧
      ∃ upto stage later spec accumulated, c.pipeline.stages = upto ++ stage :: later ∧
        Lowering.ownStage reader = .ok stage ∧ Lowering.ownStage g = .ok (.group spec) ∧
        Lowering.lowerAccumulator inner = .ok accumulated ∧ Pipeline.Shows upto spec name accumulated := by
  obtain ⟨planned, t, collection, stages, f, hplan, hlower, hf, hstages⟩ := exists_tidies hcompile
  have hnative : root.Native := (exists_compile_iff_steps.1 ⟨c, hcompile⟩).1
  have hw := hheld.wellFormed hroot
  obtain ⟨hreplaced, hwf⟩ := turned_of_plan (hheld.fresh hroot) hw hnative hplan
  have hone : planned.root.occurrences.countP (Expr.isGroupOf scope) ≤ 1 := calc
    planned.root.occurrences.countP (Expr.isGroupOf scope) = root.occurrences.countP (Expr.isGroupOf scope) :=
      hreplaced.countP_isGroupOf hw hnative hw hnative scope
    _ ≤ 1 := countP_isGroupOf_le_one hw hnative hplan scope
  obtain ⟨m, after, reader, input, g, output, n, rfl, hreader, hkind, hinput, hfield, hmaker, hscope, houtput, hsame⟩ :=
    hreplaced.exists_reader hw hnative hone hdirect hat
  have hbelow : reader.at? (1 :: after) = some (.field ⟨n, i.type⟩ output.1) := by
    rwa [Expr.at?_append, hreader] at hfield
  obtain ⟨own, later, hown, rfl⟩ := Lowering.exists_upto hreader hlower
  obtain ⟨j, rfl, -⟩ | ⟨input', upto, stage, hinput', hchain, hupto, hstage, rfl⟩ := Lowering.exists_of_lower hown
  · cases hinput
  cases hinput.symm.trans hinput'
  have hg : g ∈ reader.chain := by
    rw [hchain]
    exact List.mem_cons_of_mem _ (List.mem_of_find?_eq_some hmaker)
  have hchecked : g.Checked := hwf g (Expr.mem_occurrences_trans (Expr.mem_occurrences_of_at? hreader)
    (Expr.mem_occurrences_of_mem_chain hg))
  obtain ⟨spec, accumulated, hspec, haccumulated, hshows⟩ :=
    Lowering.shows_of_maker? hchecked hscope houtput hmaker hupto
  refine ⟨planned, t, _, after, reader, g, output.1, n, hplan, rfl, hreader, hfield, hg, hscope, f upto, stage, f later,
    spec, accumulated, ?_, hstage, hspec, (Lowering.lowerAccumulator_eq_of_sameStructure hsame).symm.trans haccumulated,
    hf.shows hshows⟩
  rw [hstages, List.append_assoc]
  exact hf.split (Lowering.isSolid_of_field hkind hbelow hstage) upto later

section Totals

/-- The total of a region, behind the predicate that keeps regions with more than one large order. -/
theorem field_shows_group_regionTotals : ∃ root s held c i scope inner, Build.Held s held ∧ root ∈ held ∧
    (compile {} "" root s).result = .ok c ∧ root.at? [0, 1, 1] = some (.correlated i scope inner) ∧
    root.DirectAt [0, 1, 1] scope ∧ ∃ upto stage later spec name accumulated,
      c.pipeline.stages = upto ++ stage :: later ∧ Lowering.lowerAccumulator inner = .ok accumulated ∧
      Pipeline.Shows upto spec name accumulated := by
  obtain ⟨root, s, c, hbuild, hcompile, hplace⟩ := exists_compiled (x := Query.regionTotals.build)
    (p := fun root _ => (root.at? [0, 1, 1]).any fun e => e.kind = .correlated) (by decide +kernel)
  obtain ⟨e, hat, hkind⟩ := (Option.any_eq_true _ _).mp hplace
  obtain ⟨i, scope, inner, rfl⟩ := Expr.exists_of_kind_eq_correlated (of_decide_eq_true hkind)
  obtain ⟨held, hheld, hroot⟩ := Query.exists_held_of_build hbuild
  have hdirect := Query.direct_of_build hbuild _ _ _ _ hat
  obtain ⟨-, -, -, -, -, -, name, -, -, -, -, -, -, -, upto, stage, later, spec, accumulated, hstages, -, -,
    haccumulated, hshows⟩ := field_shows_group hheld hroot hcompile hat hdirect
  exact ⟨root, s, held, c, i, scope, inner, hheld, hroot, hcompile, hat, hdirect, upto, stage, later, spec, name,
    accumulated, hstages, haccumulated, hshows⟩

/-- The names of the regions with large totals, where the total is asked for after the names. -/
def projectedTotals : Build Expr := do
  let (scope, r) ← Resolver.mint {}
  let orders ← Build.source "orders"
  let region ← Build.field "region" .string
  let grouped ← Build.group orders region scope []
  let key ← Build.field "_id" .string
  let names ← Build.document [("region", key)]
  let projected ← Build.project grouped names
  let quantity ← Build.field "qty" .int32
  let sum ← Build.accumulator .sum (some quantity)
  let total ← r.tag sum scope
  let least ← Build.constant (.int32 5)
  let isLarge ← Build.binary .gt total least
  Build.filter projected isLarge

open Build (Held run_bind_eq_ok run_pure_eq_ok) in
theorem exists_held_projectedTotals {e : Expr} {s : Supply} (h : projectedTotals.run {} = .ok (e, s)) :
    ∃ held, Held s held ∧ e ∈ held := by
  obtain ⟨⟨scope, r⟩, s₀, hmint, h⟩ := run_bind_eq_ok.1 h
  obtain ⟨minted, u, hscope, hpair⟩ := run_bind_eq_ok.1 hmint
  obtain ⟨-, rfl⟩ := run_pure_eq_ok.1 hpair
  obtain ⟨orders, s₁, horders, h⟩ := run_bind_eq_ok.1 h
  obtain ⟨region, s₂, hregion, h⟩ := run_bind_eq_ok.1 h
  obtain ⟨grouped, s₃, hgrouped, h⟩ := run_bind_eq_ok.1 h
  obtain ⟨key, s₄, hkey, h⟩ := run_bind_eq_ok.1 h
  obtain ⟨names, s₅, hnames, h⟩ := run_bind_eq_ok.1 h
  obtain ⟨projected, s₆, hprojected, h⟩ := run_bind_eq_ok.1 h
  obtain ⟨quantity, s₇, hquantity, h⟩ := run_bind_eq_ok.1 h
  obtain ⟨sum, s₈, hsum, h⟩ := run_bind_eq_ok.1 h
  obtain ⟨total, s₉, htotal, h⟩ := run_bind_eq_ok.1 h
  obtain ⟨least, t, hleast, h⟩ := run_bind_eq_ok.1 h
  obtain ⟨isLarge, t', hlarge, h⟩ := run_bind_eq_ok.1 h
  have h₁ := Held.node (.scope (.nothing {}) hscope) (.source "orders") horders
  have h₂ := h₁.node (.field "region" .string) hregion
  have h₃ := h₂.node (.group scope (by simp) (by simp) (by simp)) hgrouped
  have h₄ := h₃.node (.field "_id" .string) hkey
  have h₅ := h₄.node (.document (by simp)) hnames
  have h₆ := h₅.node (.project (by simp) (by simp)) hprojected
  have h₇ := h₆.node (.field "qty" .int32) hquantity
  have h₈ := h₇.node (.accumulator .sum (by simp)) hsum
  have h₉ := h₈.node (.tag r scope (by simp)) htotal
  have h₁₀ := h₉.node (.constant (.int32 5)) hleast
  have h₁₁ := h₁₀.node (.binary .gt (by simp) (by simp)) hlarge
  exact ⟨_, h₁₁.node (.filter (by simp) (by simp)) h, List.mem_cons_self⟩

/-- Behind a projection the field need not be there: the tree compiles, and in the documents in which the match looks
for the total of the group there is none. -/
theorem field_shows_group_projected_ne : ∃ root s held c i inner scope spec names query,
    Build.Held s held ∧ root ∈ held ∧ (compile {} "" root s).result = .ok c ∧
      root.at? [1, 0] = some (.correlated i scope inner) ∧
      c.pipeline.stages = [.group spec, .project names, .filter query] ∧
      spec.get? "__agg0" = some (.document (.single "$sum" (.string "$qty"))) ∧
      query = .single "__agg0" (.document (.single "$gt" (.int32 5))) ∧
      Pipeline.run .plain [.group spec] Query.someOrders = some [⟨[("_id", .string "north"), ("__agg0", .int32 15)]⟩,
        ⟨[("_id", .string "south"), ("__agg0", .int32 8)]⟩] ∧
      Pipeline.run .plain [.group spec, .project names] Query.someOrders
        = some [⟨[("region", .string "north")]⟩, ⟨[("region", .string "south")]⟩] := by
  obtain ⟨root, s, c, hbuild, hcompile, hcheck⟩ := exists_compiled (x := projectedTotals)
    (p := fun root c => ((root.at? [1, 0]).any fun e => e.kind = .correlated) && decide (c.pipeline.stages =
      [.group ⟨[("_id", .string "$region"), ("__agg0", .document (.single "$sum" (.string "$qty")))]⟩,
        .project ⟨[("_id", .int32 0), ("region", .string "$_id")]⟩,
        .filter (.single "__agg0" (.document (.single "$gt" (.int32 5))))])) (by decide +kernel)
  obtain ⟨hplace, hstages⟩ := (Bool.and_eq_true _ _).mp hcheck
  obtain ⟨e, hat, hkind⟩ := (Option.any_eq_true _ _).mp hplace
  obtain ⟨i, scope, inner, rfl⟩ := Expr.exists_of_kind_eq_correlated (of_decide_eq_true hkind)
  obtain ⟨held, hheld, hroot⟩ := exists_held_projectedTotals hbuild
  exact ⟨root, s, held, c, i, inner, scope, _, _, _, hheld, hroot, hcompile, hat, of_decide_eq_true hstages,
    by decide +kernel, rfl, by decide +kernel, by decide +kernel⟩

end Totals

end Aggregation
