import Aggregation.Proofs.Expr.Failures
import Aggregation.Proofs.Expr.Sessions
import Aggregation.Proofs.Query.Operations

/-!
Building a query is a session of a caller, which never fails fatally: every node of the tree that comes out has been
made by a call from nodes that the builder held.
-/

namespace Aggregation

namespace Build

variable {α β : Type} {held : List Expr} {x : Build α} {gives gives' : List Expr → α → Prop}

/-- From the nodes that it holds a step makes more by calls, so that its result is as told, or rejects its input. -/
def Yields (held : List Expr) (x : Build α) (gives : List Expr → α → Prop) : Prop :=
  ∀ s, Held s held → Rejects (x.run s) ∧
    ∀ a t, x.run s = .ok (a, t) → ∃ more, Held t (more ++ held) ∧ gives (more ++ held) a

theorem Yields.pure {a : α} (h : gives held a) : Yields held (pure a) gives := by
  refine fun s hs => ⟨nofun, fun b t hrun => ?_⟩
  obtain ⟨rfl, rfl⟩ := run_pure_eq_ok.1 hrun
  exact ⟨[], hs, h⟩

theorem Yields.throw_bind {err : CompileError} {f : β → Build α} (h : err.isFatal = false) :
    Yields held (throw err >>= f) gives := by
  refine fun s _ => ⟨fun err' herr => ?_, fun _ _ hrun => absurd hrun run_throw_bind_ne_ok⟩
  cases herr
  exact h

theorem Yields.throw {err : CompileError} (h : err.isFatal = false) : Yields held (throw err : Build α) gives :=
  fun s _ => ⟨neverFatal_throw h s, nofun⟩

theorem Yields.bind {f : α → Build β} {gives' : List Expr → β → Prop} (hx : Yields held x gives)
    (hf : ∀ more a, gives (more ++ held) a → Yields (more ++ held) (f a) gives') : Yields held (x >>= f) gives' := by
  intro s hs
  obtain ⟨hrejects, hyields⟩ := hx s hs
  constructor
  · intro err herr
    rcases run_bind_eq_error.1 herr with hfirst | ⟨a, t, hok, hrest⟩
    · exact hrejects err hfirst
    · obtain ⟨more, ht, ha⟩ := hyields a t hok
      exact (hf more a ha t ht).1 err hrest
  · intro b u hrun
    obtain ⟨a, t, hok, hrest⟩ := run_bind_eq_ok.1 hrun
    obtain ⟨more, ht, ha⟩ := hyields a t hok
    obtain ⟨more', hu, hb⟩ := (hf more a ha t ht).2 b u hrest
    rw [← List.append_assoc] at hu hb
    exact ⟨more' ++ more, hu, hb⟩

theorem Yields.map {f : α → β} {gives' : List Expr → β → Prop} (h : Yields held x gives)
    (himp : ∀ more a, gives (more ++ held) a → gives' (more ++ held) (f a)) : Yields held (f <$> x) gives' := by
  rw [map_eq_pure_bind]
  exact h.bind fun more a ha => .pure (himp more a ha)

/-- A step that gives a node which is held then. -/
abbrev Gives (held : List Expr) (x : Build Expr) : Prop := Yields held x fun held e => e ∈ held

theorem gives_of_call {x : Build Expr} (hcall : Call held x) (hx : NeverFatal x) : Gives held x :=
  fun s hs => ⟨hx s, fun e _ hrun => ⟨[e], .node hs hcall hrun, List.mem_cons_self⟩⟩

theorem mintScope_yields : Yields held mintScope fun _ _ => True :=
  fun _ hs => ⟨nofun, fun _ _ hrun => ⟨[], .scope hs hrun, trivial⟩⟩

end Build

open Build (Yields Gives gives_of_call)

namespace Query

variable {c : Surroundings} {held : List Expr}

/-- The scope of the grouping around an expression has been minted by the resolver that ties accumulators to it. -/
def Owned (c : Surroundings) : Prop := ∀ scope type, c.group = some (scope, type) → c.resolver.owns scope = true

theorem literal_gives (j : Json) : Gives held (literal j) := by
  unfold literal
  split
  · exact gives_of_call (.constant _) (Build.constant_neverFatal _)
  · exact .throw rfl

theorem path_gives (path : String) (type : ResultType) : Gives held (Build.field path type) :=
  gives_of_call (.field path type) (Build.field_neverFatal path type)

theorem field_gives (path : Json) (type : Option Json) : Gives held (field path type) := by
  unfold field
  split
  · split
    · exact path_gives _ _
    · split
      · exact path_gives _ _
      · exact .throw rfl
    · exact .throw rfl
  · exact .throw rfl

theorem groupKey_gives : Gives held (groupKey c) := by
  unfold groupKey
  split
  · exact path_gives _ _
  · exact .throw rfl

theorem foldlM_gives (op : BinaryOp) {first : Expr} {rest : List Expr} (hfirst : first ∈ held)
    (hrest : ∀ e ∈ rest, e ∈ held) : Gives held (rest.foldlM (Build.binary op) first) := by
  induction rest generalizing first held with
  | nil => exact .pure hfirst
  | cons second rest ih =>
      obtain ⟨hsecond, hrest⟩ := List.forall_mem_cons.1 hrest
      rw [List.foldlM_cons]
      refine (gives_of_call (.binary op hfirst hsecond)
        (Build.binary_neverFatal op first second)).bind fun more e he => ?_
      exact ih he fun d hd => List.mem_append_right _ (hrest d hd)

theorem binary_gives (op : BinaryOp) {args : List Expr} (h : ∀ e ∈ args, e ∈ held) : Gives held (binary op args) := by
  unfold binary
  split
  · split
    · obtain ⟨hfirst, hrest⟩ := List.forall_mem_cons.1 h
      exact foldlM_gives op hfirst hrest
    · exact .throw rfl
  · exact .throw rfl

/-- Ties an accumulator over an operand to the scope around it. -/
theorem tag_gives (hc : Owned c) {scope : Scope} {type : ResultType} (hgroup : c.group = some (scope, type))
    (op : AccumulatorOp) {operand : Option Expr} (h : ∀ e ∈ operand, e ∈ held) :
    Gives held (do c.resolver.tag (← Build.accumulator op operand) scope) :=
  (gives_of_call (.accumulator op h) (Build.accumulator_neverFatal op operand)).bind fun _ inner hinner =>
    gives_of_call (.tag c.resolver scope hinner) (Build.tag_neverFatal (hc scope type hgroup) inner)

/-- All of some nodes are held. -/
def AllHeld (held es : List Expr) : Prop := ∀ e ∈ es, e ∈ held

theorem some_gives {x : Build Expr} (h : Gives held x) :
    Yields held (some <$> x) fun held operand => ∀ e ∈ operand, e ∈ held :=
  h.map fun _ _ he _ hd => Option.mem_some_iff.1 hd ▸ he

theorem expressions_give {items : List Json} (h : ∀ i ∈ items, ∀ held, Gives held (expression c i)) :
    Yields held (expressions c items) AllHeld := by
  induction items generalizing held with
  | nil => exact .pure nofun
  | cons j rest ih =>
      obtain ⟨hj, hrest⟩ := List.forall_mem_cons.1 h
      refine (hj held).bind fun more e he => ?_
      refine (ih hrest).bind fun more' es hes => .pure ?_
      exact List.forall_mem_cons.2 ⟨List.mem_append_right _ he, hes⟩

theorem fields_give {members : List (String × Json)} (h : ∀ m ∈ members, ∀ held, Gives held (expression c m.2)) :
    Yields held (fields c members) fun held fs => ∀ f ∈ fs, f.2 ∈ held := by
  induction members generalizing held with
  | nil => exact .pure nofun
  | cons m rest ih =>
      obtain ⟨hm, hrest⟩ := List.forall_mem_cons.1 h
      refine (hm held).bind fun more e he => ?_
      refine (ih hrest).bind fun more' fs hfs => .pure ?_
      exact List.forall_mem_cons.2 ⟨List.mem_append_right _ he, hfs⟩

theorem accumulator_gives (hc : Owned c) (name : String) {arg : Json} (op : AccumulatorOp)
    (harg : Gives held (expression c arg)) : Gives held (applied c name arg (.accumulator op)) := by
  simp only [applied]
  split
  · exact .throw rfl
  · next scope type hgroup =>
      by_cases hcount : op = .count
      · rw [if_pos hcount]
        exact tag_gives hc hgroup op fun e he => (Option.not_mem_none e he).elim
      · rw [if_neg hcount]
        exact (some_gives harg).bind fun _ operand h => tag_gives hc hgroup op h

theorem expression_gives (hc : Owned c) (j : Json) (held : List Expr) : Gives held (expression c j) := by
  induction j using expression_induction generalizing held with
  | plain j hplain =>
      rw [expression_plain hplain]
      exact literal_gives j
  | field members path hpath =>
      rw [expression_field hpath]
      exact field_gives path _
  | count members hfield hcount =>
      rw [expression_operation hfield, operation_count hcount]
      exact .throw rfl
  | operation name arg hname harg hoperand hoperands hmembers =>
      rw [expression_applied hname]
      cases Head.ofName name with
      | literal => exact literal_gives arg
      | key => exact groupKey_gives
      | document =>
          cases arg with
          | object members =>
              exact (fields_give (hmembers members.entries rfl)).bind fun _ fs hfs =>
                gives_of_call (.document hfs) (Build.document_neverFatal fs)
          | null | bool | number | string | array => exact .throw rfl
      | unary op =>
          exact (hoperand held).bind fun _ d hd => gives_of_call (.unary op hd) (Build.unary_neverFatal op d)
      | binary op => exact (expressions_give hoperands).bind fun _ ds hds => binary_gives op hds
      | accumulator op => exact accumulator_gives hc name op (harg held)
      | extension =>
          exact (expressions_give hoperands).bind fun _ ds hds =>
            gives_of_call (.extension name hds) (Build.extension_neverFatal name ds)

section Steps

variable {r : Resolver} {input : Expr}

theorem owned_outside (r : Resolver) : Owned ⟨r, none⟩ := nofun

theorem document_gives (hc : Owned c) (select : Record Json) : Gives held (document c select) :=
  (fields_give fun m _ => expression_gives hc m.2).bind fun _ fs hfs =>
    gives_of_call (.document hfs) (Build.document_neverFatal fs)

/-- A resolver owns the scope that it has minted. -/
theorem mint_yields (r : Resolver) : Yields held r.mint fun _ p => p.2.owns p.1 = true :=
  Build.mintScope_yields.bind fun _ scope _ => .pure (by simp [Resolver.owns])

/-- A node beside the resolver. -/
theorem pair_yields {x : Build Expr} (h : Gives held x) :
    Yields held (do return (← x, r) : Build (Expr × Resolver)) fun held p => p.1 ∈ held :=
  h.bind fun _ _ he => .pure he

theorem filter_gives {predicate : Expr} (hinput : input ∈ held) (h : predicate ∈ held) :
    Gives held (Build.filter input predicate) :=
  gives_of_call (.filter hinput h) (Build.filter_neverFatal input predicate)

theorem project_gives {projection : Expr} (hinput : input ∈ held) (h : projection ∈ held) :
    Gives held (Build.project input projection) :=
  gives_of_call (.project hinput h) (Build.project_neverFatal input projection)

theorem group_yields (key : Json) (having : Option Json) (select : Record Json) (hinput : input ∈ held) :
    Yields held (group r input key having select) fun held p => p.1 ∈ held := by
  have hselected {c : Surroundings} {held : List Expr} {kept : Expr} {r : Resolver} (hc : Owned c)
      (hkept : kept ∈ held) : Yields held (do return (← Build.project kept (← document c select), r) :
        Build (Expr × Resolver)) fun held p => p.1 ∈ held :=
    (document_gives hc select).bind fun more d hd => pair_yields (project_gives (List.mem_append_right _ hkept) hd)
  unfold group
  by_cases hselect : select.isEmpty = true
  · rw [if_pos hselect]
    exact .throw_bind rfl
  · rw [if_neg hselect]
    refine (mint_yields r).bind fun m₁ ⟨scope, r'⟩ howns => ?_
    refine (expression_gives (owned_outside r') key _).bind fun m₂ keyExpr hkey => ?_
    have hc : Owned ⟨r', some (scope, keyExpr.type)⟩ := by
      intro sc type hsome
      cases hsome
      exact howns
    have hinput₂ : input ∈ m₂ ++ (m₁ ++ held) := List.mem_append_right _ (List.mem_append_right _ hinput)
    refine (gives_of_call (.group scope hinput₂ hkey fun _ hf => absurd hf List.not_mem_nil)
      (Build.group_neverFatal input keyExpr scope [])).bind
      fun m₃ grouped hgrouped => ?_
    cases having with
    | none => exact hselected hc hgrouped
    | some predicate =>
        exact (expression_gives hc predicate _).bind fun _ p hp =>
          (filter_gives (List.mem_append_right _ hgrouped) hp).bind fun _ kept hkept => hselected hc hkept

theorem step_yields (st : Step) (hinput : input ∈ held) :
    Yields held (step r input st) fun held p => p.1 ∈ held := by
  cases st with
  | filter predicate =>
      exact (expression_gives (owned_outside r) predicate _).bind fun _ p hp =>
        pair_yields (filter_gives (List.mem_append_right _ hinput) hp)
  | group key having select => exact group_yields key having select hinput
  | project fields =>
      exact (document_gives (owned_outside r) fields).bind fun _ p hp =>
        pair_yields (project_gives (List.mem_append_right _ hinput) hp)
  | sort keys => exact pair_yields (gives_of_call (.sort keys hinput) (Build.sort_neverFatal input keys))
  | skip count => exact pair_yields (gives_of_call (.skip count hinput) (Build.skip_neverFatal input count))
  | limit count => exact pair_yields (gives_of_call (.limit count hinput) (Build.limit_neverFatal input count))

theorem follow_gives (steps : List Step) (hinput : input ∈ held) : Gives held (follow r input steps) := by
  induction steps generalizing r input held with
  | nil => exact .pure hinput
  | cons st rest ih => exact (step_yields st hinput).bind fun _ _ hnext => ih hnext

theorem build_gives (q : Query) : Gives held q.build :=
  (gives_of_call (.source q.collection) (Build.source_neverFatal q.collection)).bind fun _ _ hsource =>
    follow_gives q.steps hsource

/-- The tree of a query is held by its builder. -/
theorem exists_held_of_build {q : Query} {root : Expr} {s t : Supply} (h : q.build.run s = .ok (root, t)) :
    ∃ held, Build.Held t held ∧ root ∈ held := by
  obtain ⟨more, hheld, hmem⟩ := (build_gives q s (.nothing s)).2 root t h
  exact ⟨_, hheld, hmem⟩

end Steps

end Query

end Aggregation
