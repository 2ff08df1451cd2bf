import Aggregation.Compile.Basic
import Aggregation.Proofs.Compile.Stages

/-!
Compilation preserves meaning. The stages that a query becomes give the documents that the steps of the query give,
if the key of a group is read from `_id`. This is the key itself but below an accumulator, where it is a field of the
rows of the group.
-/

namespace Aggregation

/-- A tree that can be built and compiled, to something that passes a check. -/
theorem exists_compiled {x : Build Expr} {p : Expr → Compilation → Bool}
    (h : ((x.run {}).toOption.bind fun built =>
      (compile {} "" built.1 built.2).result.toOption.map (p built.1)) = some true) :
    ∃ root s c, x.run {} = .ok (root, s) ∧ (compile {} "" root s).result = .ok c ∧ p root c = true := by
  cases hbuild : x.run {} with
  | error e =>
      rw [hbuild] at h
      cases h
  | ok built =>
      rw [hbuild] at h
      replace h : (compile {} "" built.1 built.2).result.toOption.map (p built.1) = some true := h
      cases hcompile : (compile {} "" built.1 built.2).result with
      | error e =>
          rw [hcompile] at h
          cases h
      | ok c =>
          rw [hcompile] at h
          exact ⟨built.1, built.2, c, rfl, hcompile, Option.some.inj h⟩

namespace Query

open Binding (Bound)

variable {I : Interpretation} {q : Query} {root : Expr} {config : Config} {id : String} {s₀ supply : Supply}
  {c : Compilation} {rows : List Document}

/-- What a compilation that succeeds has planned and lowered. -/
theorem compile_eq_ok (h : (compile config id root supply).result = .ok c) :
    ∃ planned t collection stages, (plan config.stem root).run supply = .ok (planned, t) ∧
      Lowering.lower planned.root = .ok (collection, stages) ∧ c.groups = planned.groups ∧
      (c.pipeline.stages = stages ∨ c.pipeline.stages = (Pipeline.eliminate stages).1) := by
  replace h : (Compilation.steps config root supply).result = .ok c := h
  unfold Compilation.steps at h
  split at h
  · exact absurd h nofun
  split at h
  · exact absurd h nofun
  next planned t hplan =>
  split at h
  · exact absurd h nofun
  next emission hemit =>
  cases h
  obtain ⟨⟨collection, stages⟩, hlower, hemit⟩ := bind_eq_ok.1 hemit
  refine ⟨planned, t, collection, stages, hplan, hlower, rfl, ?_⟩
  dsimp only at hemit
  split at hemit
  · cases hemit
    exact .inr rfl
  · cases hemit
    exact .inl rfl

/-- The emitted stages give the documents of the query, the key of a group being read from `_id`. -/
theorem run_compile_rowKey (hbuild : q.build.run s₀ = .ok (root, supply))
    (hcompile : (compile config id root supply).result = .ok c) (hnames : ∀ st ∈ q.steps, st.NamesFields)
    (hclear : ∀ path ∈ q.paths, IsClear c.groups path) (hrows : rows.length < 2 ^ 63) :
    Reading.run I c.pipeline.documents rows = some (q.run I (rowKey I) rows) := by
  obtain ⟨planned, t, collection, stages, hplan, hlower, hgroups, hstages⟩ := compile_eq_ok hcompile
  obtain ⟨⟨i, hfollow⟩, hgrown⟩ := allFollow_of_build hbuild
  obtain ⟨hbound, hplans⟩ := bound_of_plan hgrown.2 hplan
  have hsource : HasScalars (.source i q.collection) := hasScalars_of_children nofun nofun
  have hstart : Makes I root planned.groups rows (.source i q.collection) rows := by
    intro e' coll before hb hbefore
    obtain ⟨j, children, rfl, -⟩ := hb.exists_withChildren nofun nofun
    cases hbefore
    rfl
  have hmakes := hfollow.makes (hfollow.hasScalars hsource) hplans hrows (hgroups ▸ hclear) hnames hstart
  have hrun : Pipeline.run I stages rows = some (q.run I (rowKey I) rows) := hmakes _ _ _ hbound hlower
  show Pipeline.run I c.pipeline.stages rows = _
  rcases hstages with heq | heq
  · rw [heq, hrun]
  · rw [heq, Pipeline.run_eliminate stages hrows, hrun]

section Keys

theorem rowKey_keyRow (key : Value) : rowKey I key (keyRow key) = groupKeyValue key (keyRow key) :=
  I.lookup_name (by decide) rfl

theorem fieldValues_congr {key key' : Document → Value} {members : List Document} {row : Document}
    {fields : List (String × Term)}
    (h : ∀ x ∈ fields.map Prod.snd, x.value I key members row = x.value I key' members row) :
    Term.fieldValues I key members row fields = Term.fieldValues I key' members row fields := by
  induction fields with
  | nil => rfl
  | cons f rest ih =>
      obtain ⟨name, x⟩ := f
      obtain ⟨hx, hrest⟩ := List.forall_mem_cons.1 h
      rw [Term.fieldValues, Term.fieldValues, hx, ih hrest]

/-- If no accumulator has the key below it, it is the same to read the key from `_id`. -/
theorem run_step_rowKey {st : Step} (h : st.KeyOutsideOperands) (rows : List Document) :
    st.run I (rowKey I) rows = st.run I groupKeyValue rows := by
  cases st with
  | filter | project | sort | skip | limit => rfl
  | group key having select =>
      have hvalue : ∀ x ∈ (Step.group key having select).terms, ∀ k members,
          x.value I (rowKey I k) members (keyRow k) = x.value I (groupKeyValue k) members (keyRow k) :=
        fun x hx k members => Term.value_congr_key I members true x _ (h x hx) fun _ => rowKey_keyRow k
      unfold Step.run
      dsimp only
      congr 1
      · funext group
        obtain ⟨k, members⟩ := group
        exact congrArg Record.mk (fieldValues_congr fun x hx => hvalue x (List.mem_append_right _ hx) k members)
      · refine List.filter_congr fun group _ => ?_
        obtain ⟨k, members⟩ := group
        cases having with
        | none => rfl
        | some predicate =>
            have hmem : term predicate ∈ (Step.group key (some predicate) select).terms :=
              List.mem_append_left _ (List.mem_cons_of_mem _ List.mem_cons_self)
            exact congrArg I.truth (hvalue _ hmem k members)

theorem run_rowKey (h : ∀ st ∈ q.steps, st.KeyOutsideOperands) (rows : List Document) :
    q.run I (rowKey I) rows = q.run I groupKeyValue rows := by
  unfold run
  generalize q.steps = steps at h ⊢
  induction steps generalizing rows with
  | nil => rfl
  | cons st rest ih =>
      obtain ⟨hst, hrest⟩ := List.forall_mem_cons.1 h
      rw [List.foldl_cons, List.foldl_cons, run_step_rowKey hst, ih _ hrest]

end Keys

/-- The emitted stages give the documents of the query. What a grouping calls its key is the key of its groups,
except that below an accumulator it is the `_id` of a row of the group. -/
theorem run_compile (hbuild : q.build.run s₀ = .ok (root, supply))
    (hcompile : (compile config id root supply).result = .ok c) (hnames : ∀ st ∈ q.steps, st.NamesFields)
    (hclear : ∀ path ∈ q.paths, IsClear c.groups path) (hrows : rows.length < 2 ^ 63) :
    Reading.run I c.pipeline.documents rows = some (q.run I (rowKey I) rows) ∧
      ((∀ st ∈ q.steps, st.KeyOutsideOperands) →
        Reading.run I c.pipeline.documents rows = some (q.run I groupKeyValue rows)) := by
  have hrun := run_compile_rowKey (I := I) hbuild hcompile hnames hclear hrows
  exact ⟨hrun, fun hkey => run_rowKey hkey rows ▸ hrun⟩

section Orders

/-- Whether no path of a query begins with the name of an output. -/
def hasClearPaths (q : Query) (c : Compilation) : Bool :=
  q.paths.all fun path => c.groups.all fun p => p.names.all fun name => (segments path).head? != some name

theorem isClear_of_hasClearPaths (h : q.hasClearPaths c = true) : ∀ path ∈ q.paths, IsClear c.groups path := by
  intro path hpath p hp name hname
  have hall := List.all_eq_true.1 (List.all_eq_true.1 (List.all_eq_true.1 h path hpath) p hp) name hname
  exact bne_iff_ne.1 hall

/-- A field of a type. -/
def typed (path type : String) : Json := .ofMembers [("field", .string path), ("type", .string type)]

def groupKeyJson : Json := .ofMembers [("key", .ofMembers [])]

/-- The total of each region that has more than one large order. -/
def regionTotals : Query :=
  ⟨"orders",
    [.filter (.ofMembers [("gt", .array [typed "qty" "int32", .int 5])]),
      .group (typed "region" "string")
        (some (.ofMembers [("gt", .array [.ofMembers [("count", .ofMembers [])], .int 1])]))
        ⟨[("region", groupKeyJson), ("total", .ofMembers [("sum", typed "qty" "int32")])]⟩,
      .limit 10]⟩

def someOrders : List Document :=
  [⟨[("_id", .int32 1), ("region", .string "north"), ("qty", .int32 6)]⟩,
    ⟨[("_id", .int32 2), ("region", .string "south"), ("qty", .int32 8)]⟩,
    ⟨[("_id", .int32 3), ("region", .string "north"), ("qty", .int32 9)]⟩]

theorem run_compile_regionTotals : ∃ root supply c, regionTotals.build.run {} = .ok (root, supply) ∧
    (compile {} "" root supply).result = .ok c ∧ (∀ st ∈ regionTotals.steps, st.NamesFields) ∧
    (∀ path ∈ regionTotals.paths, IsClear c.groups path) ∧ someOrders.length < 2 ^ 63 ∧
    (∀ st ∈ regionTotals.steps, st.KeyOutsideOperands) ∧
    Reading.run .plain c.pipeline.documents someOrders
      = some [⟨[("region", .string "north"), ("total", .int32 15)]⟩] := by
  obtain ⟨root, supply, c, hbuild, hcompile, hcheck⟩ := exists_compiled (x := regionTotals.build)
    (p := fun _ => regionTotals.hasClearPaths) (by decide +kernel)
  have hnames : ∀ st ∈ regionTotals.steps, st.NamesFields :=
    List.forall_mem_cons.2 ⟨trivial, List.forall_mem_cons.2 ⟨trivial, List.forall_mem_singleton.2 trivial⟩⟩
  have hkey : ∀ st ∈ regionTotals.steps, ∀ x ∈ st.terms, x.mentionsKey true = false := by decide +kernel
  have hrows : someOrders.length < 2 ^ 63 := by decide
  have hclear := isClear_of_hasClearPaths hcheck
  have hdirect : regionTotals.run .plain groupKeyValue someOrders
      = [⟨[("region", .string "north"), ("total", .int32 15)]⟩] := by decide +kernel
  refine ⟨root, supply, c, hbuild, hcompile, hnames, hclear, hrows, hkey, ?_⟩
  rw [(run_compile hbuild hcompile hnames hclear hrows).2 hkey, hdirect]

/-- The key of a group below an accumulator. -/
def keyMaxima : Query :=
  ⟨"orders",
    [.group (.ofMembers [("field", .string "region")]) none ⟨[("m", .ofMembers [("max", groupKeyJson)])]⟩]⟩

/-- Below an accumulator the key of a group is not read: the greatest `_id` of the rows of a group comes out where
the key of the group is asked for. -/
theorem run_compile_keyMaxima_ne : ∃ root supply c, keyMaxima.build.run {} = .ok (root, supply) ∧
    (compile {} "" root supply).result = .ok c ∧ (∀ st ∈ keyMaxima.steps, st.NamesFields) ∧
    (∀ path ∈ keyMaxima.paths, IsClear c.groups path) ∧
    Reading.run .plain c.pipeline.documents someOrders = some [⟨[("m", .int32 3)]⟩, ⟨[("m", .int32 2)]⟩] ∧
    keyMaxima.run .plain groupKeyValue someOrders
      = [⟨[("m", .string "north")]⟩, ⟨[("m", .string "south")]⟩] := by
  obtain ⟨root, supply, c, hbuild, hcompile, hcheck⟩ := exists_compiled (x := keyMaxima.build)
    (p := fun _ c => keyMaxima.hasClearPaths c && decide (Reading.run .plain c.pipeline.documents someOrders
      = some [⟨[("m", .int32 3)]⟩, ⟨[("m", .int32 2)]⟩])) (by decide +kernel)
  obtain ⟨hclear, hrun⟩ := (Bool.and_eq_true _ _).mp hcheck
  refine ⟨root, supply, c, hbuild, hcompile, ?_, isClear_of_hasClearPaths hclear, of_decide_eq_true hrun, ?_⟩
  · exact List.forall_mem_singleton.2 trivial
  · decide +kernel

end Orders

end Query

end Aggregation
