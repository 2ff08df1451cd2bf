import Aggregation.Proofs.Expr.Lawful
import Aggregation.Proofs.Pipeline.Positions
import Aggregation.Proofs.Plan.Replacement

/-!
The spine of a tree: the pipelines that it is made of, without the source. Each has one stage, in the order in which
they read from each other; leaving out stages keeps those of groups, and tells of every other stage that is gone.
-/

namespace Aggregation

/-- The operator of the stage that a pipeline of a kind has; a source has none. -/
def NodeKind.stageOperator : NodeKind → String
  | .filter => "$match"
  | .group => "$group"
  | .project => "$project"
  | .sort => "$sort"
  | .skip => "$skip"
  | .limit => "$limit"
  | _ => ""

namespace Expr

variable {e input : Expr}

/-- The collection of a source. -/
def collection? : Expr → Option String
  | .source _ collection => some collection
  | _ => none

/-- The pipelines that a pipeline is made of but for the source, the one that reads from the source first. -/
def spine (e : Expr) : List Expr := (e.chain.filter fun d => d.kind ≠ .source).reverse

theorem spine_append (hchain : e.chain = e :: input.chain) (hkind : e.kind ≠ .source) :
    e.spine = input.spine ++ [e] := by
  have hkept : decide (e.kind ≠ .source) = true := decide_eq_true hkind
  rw [spine, hchain, List.filter_cons, if_pos hkept, List.reverse_cons]
  rfl

/-- A pipeline is a source, or it reads from its first child and has no other child that is a pipeline. -/
theorem Checked.exists_input (h : e.Checked) (hpipeline : e.isPipeline = true) :
    (∃ i collection, e = .source i collection) ∨ ∃ input rest, e.children = input :: rest ∧ e.chain = e :: input.chain ∧
      input.isPipeline = true ∧ (∀ c ∈ rest, c.isPipeline = false) ∧ e.kind ≠ .source := by
  cases e with
  | source i collection => exact .inl ⟨i, collection, rfl⟩
  | filter | group | project | sort | skip | limit =>
      exact .inr ⟨_, _, rfl, rfl, h.1, fun c hc => h.isPipeline_eq_false rfl hc, nofun⟩
  | constant | field | binary | unary | document | accumulator | correlated | extension => cases hpipeline

/-- The pipelines in a tree are those that it is made of. -/
theorem filter_isPipeline_occurrences (hw : e.WellFormed) (hn : e.Native) (hpipeline : e.isPipeline = true) :
    e.occurrences.filter isPipeline = e.chain := by
  induction e using induction_children with
  | step e ih =>
      obtain ⟨i, collection, rfl⟩ | ⟨input, rest, hchildren, hchain, hinput, hrest, -⟩ :=
        hw.checked.exists_input hpipeline
      · rw [occurrences_eq]
        rfl
      have hmem : input ∈ e.children := hchildren ▸ List.mem_cons_self
      have hnone : (rest.flatMap occurrences).filter isPipeline = [] := by
        refine List.filter_eq_nil_iff.2 fun d hd => Bool.not_eq_true _ ▸ ?_
        obtain ⟨c, hc, hd⟩ := List.mem_flatMap.1 hd
        have hchild : c ∈ e.children := hchildren ▸ List.mem_cons_of_mem _ hc
        exact isPipeline_eq_false_of_mem (hw.child hchild) (hn.child hchild) (hrest c hc) hd
      rw [occurrences_eq, List.filter_cons_of_pos hpipeline, hchildren, List.flatMap_cons, List.filter_append, hnone,
        List.append_nil, ih input hmem (hw.child hmem) (hn.child hmem) hinput, hchain]

theorem isPipeline_of_collection? {name : String} (h : e.collection? = some name) : e.isPipeline = true := by
  cases e with
  | source => rfl
  | constant | field | binary | unary | document | accumulator | correlated | filter | group | project | sort | skip
  | limit | extension => cases h

theorem filterMap_collection?_occurrences (hw : e.WellFormed) (hn : e.Native) (hpipeline : e.isPipeline = true) :
    e.occurrences.filterMap collection? = e.chain.filterMap collection? := by
  rw [← filter_isPipeline_occurrences hw hn hpipeline, List.filterMap_filter]
  refine List.filterMap_congr fun d _ => ?_
  cases hname : d.collection? with
  | none => rw [ite_self]
  | some name => rw [if_pos (isPipeline_of_collection? hname)]

end Expr

namespace Replaced

variable {root e e' : Expr} {up : List Expr}

/-- Pipelines become pipelines, one for each that the tree is made of. -/
theorem forall₂_chain (h : Replaced root up e e') :
    List.Forall₂ (fun d d' => d.isPipeline = true ∧ ∃ up, Replaced root up d d') e.chain e'.chain := by
  induction h with
  | correlated => exact .nil
  | filter i n hinput hpredicate ih _ => exact .cons ⟨rfl, [], .filter i n hinput hpredicate⟩ ih
  | project i n hinput hprojection ih _ => exact .cons ⟨rfl, [], .project i n hinput hprojection⟩ ih
  | group i n hinput hkey hnew ih _ => exact .cons ⟨rfl, [], .group i n hinput hkey hnew⟩ ih
  | @kept up e hkind n children hlength h ih =>
      have hself : ∃ up, Replaced root up e (e.withChildren ⟨n, e.type⟩ children) := ⟨up, .kept hkind n hlength h⟩
      cases e with
      | constant | field | document | accumulator | extension => exact .nil
      | binary =>
          obtain ⟨c, d, rfl⟩ := List.length_eq_two.1 hlength.symm
          exact .nil
      | unary =>
          obtain ⟨c, rfl⟩ := List.length_eq_one_iff.1 hlength.symm
          exact .nil
      | correlated | filter | group | project => exact absurd (by simp [Expr.kind]) hkind
      | source => exact .cons ⟨rfl, hself⟩ .nil
      | sort | skip | limit =>
          obtain ⟨c, rfl⟩ := List.length_eq_one_iff.1 hlength.symm
          exact .cons ⟨rfl, hself⟩ (ih List.mem_cons_self)

/-- The new pipelines are of the kinds that there were, over the source that there was. -/
theorem map_chain {α : Type} {f : Expr → α} (hf : ∀ up {d d'}, d.isPipeline = true → Replaced root up d d' → f d' = f d)
    (h : Replaced root up e e') : e'.chain.map f = e.chain.map f := by
  have hsame : List.Forall₂ (· = ·) (e.chain.map f) (e'.chain.map f) := by
    rw [List.forall₂_map_left_iff, List.forall₂_map_right_iff]
    refine h.forall₂_chain.imp fun d d' hd => ?_
    obtain ⟨hpipeline, up, hd⟩ := hd
    exact (hf up hpipeline hd).symm
  rw [List.forall₂_eq_eq_eq] at hsame
  exact hsame.symm

theorem collection?_eq (hpipeline : e.isPipeline = true) (h : Replaced root up e e') :
    e'.collection? = e.collection? := by
  cases h with
  | correlated => cases hpipeline
  | filter | group | project => rfl
  | @kept _ _ hkind n children hlength _ =>
      cases e with
      | source => rfl
      | constant | field | binary | unary | document | accumulator | extension => cases hpipeline
      | correlated | filter | group | project => exact absurd (by simp [Expr.kind]) hkind
      | sort | skip | limit =>
          obtain ⟨c, rfl⟩ := List.length_eq_one_iff.1 hlength.symm
          rfl

theorem filterMap_collection?_chain (h : Replaced root up e e') :
    e'.chain.filterMap Expr.collection? = e.chain.filterMap Expr.collection? := by
  have hmap (d : Expr) : d.chain.filterMap Expr.collection? = (d.chain.map Expr.collection?).filterMap id := by
    rw [List.filterMap_map]
    rfl
  rw [hmap, hmap, h.map_chain fun _ _ _ hpipeline hd => hd.collection?_eq hpipeline]

theorem kind_eq_of_isPipeline (hpipeline : e.isPipeline = true) (h : Replaced root up e e') : e'.kind = e.kind := by
  refine h.kind_eq fun hkind => ?_
  rw [Expr.isPipeline, hkind] at hpipeline
  cases hpipeline

/-- Each pipeline of the spine becomes one of the new spine. -/
theorem forall₂_spine (h : Replaced root up e e') :
    List.Forall₂ (fun d d' => ∃ up, Replaced root up d d') e.spine e'.spine := by
  have hkept : List.Forall₂ (fun d d' => d.isPipeline = true ∧ ∃ up, Replaced root up d d')
      (e.chain.filter fun d => d.kind ≠ .source) (e'.chain.filter fun d => d.kind ≠ .source) := by
    refine List.rel_filter (fun d d' hd => ?_) h.forall₂_chain
    obtain ⟨hpipeline, up, hd⟩ := hd
    show decide (d.kind ≠ .source) = true ↔ decide (d'.kind ≠ .source) = true
    rw [hd.kind_eq_of_isPipeline hpipeline]
  rw [Expr.spine, Expr.spine, List.forall₂_reverse_iff]
  exact hkept.imp fun _ _ hd => hd.2

theorem map_kind_spine (h : Replaced root up e e') : e'.spine.map Expr.kind = e.spine.map Expr.kind := by
  have hmap (d : Expr) : d.spine.map Expr.kind = ((d.chain.map Expr.kind).filter (· ≠ .source)).reverse := by
    rw [Expr.spine, List.map_reverse, List.filter_map]
    rfl
  rw [hmap, hmap, h.map_chain fun _ _ _ hpipeline hd => hd.kind_eq_of_isPipeline hpipeline]

end Replaced

namespace Lowering

variable {e : Expr} {collection : String} {stages : List Stage} {stage : Stage}

theorem kind_ne_source_of_ownStage (h : ownStage e = .ok stage) : e.kind ≠ .source := by
  intro hkind
  cases e with
  | source => cases h
  | constant | field | binary | unary | document | accumulator | correlated | filter | group | project | sort | skip
  | limit | extension => cases hkind

/-- Each pipeline of the spine has one stage. -/
theorem ownStages_of_lower (h : lower e = .ok (collection, stages)) :
    List.Forall₂ (fun d stage => ownStage d = .ok stage) e.spine stages := by
  induction e using Expr.induction_children generalizing stages with
  | step e ih =>
      obtain ⟨i, rfl, rfl⟩ | ⟨input, before, stage, hinput, hchain, hbefore, hstage, rfl⟩ := exists_of_lower h
      · exact .nil
      · rw [Expr.spine_append hchain (kind_ne_source_of_ownStage hstage)]
        exact List.rel_append (ih input (List.mem_of_getElem? hinput) hbefore) (.cons hstage .nil)

/-- The collection is that of the source, of which there is one. -/
theorem collections_of_lower (h : lower e = .ok (collection, stages)) :
    e.chain.filterMap Expr.collection? = [collection] := by
  induction e using Expr.induction_children generalizing stages with
  | step e ih =>
      obtain ⟨i, rfl, rfl⟩ | ⟨input, before, stage, hinput, hchain, hbefore, hstage, rfl⟩ := exists_of_lower h
      · rfl
      · have hnone : e.collection? = none := by
          cases e with
          | source => cases hstage
          | constant | field | binary | unary | document | accumulator | correlated | filter | group | project | sort
          | skip | limit | extension => rfl
        rw [hchain, List.filterMap_cons_none hnone]
        exact ih input (List.mem_of_getElem? hinput) hbefore

theorem operator_lowerPredicate (h : lowerPredicate e = .ok stage) : stage.operator = "$match" := by
  unfold lowerPredicate at h
  split at h
  · cases h
    rfl
  · obtain ⟨query, -, h⟩ := bind_eq_ok.1 h
    cases h
    rfl

theorem operator_lowerProjection (h : lowerProjection e = .ok stage) : stage.operator = "$project" := by
  unfold lowerProjection at h
  split at h
  all_goals
    obtain ⟨v, -, h⟩ := bind_eq_ok.1 h
    cases h
    rfl

theorem operator_ownStage (h : ownStage e = .ok stage) : stage.operator = e.kind.stageOperator := by
  cases e with
  | filter => exact operator_lowerPredicate h
  | project => exact operator_lowerProjection h
  | group =>
      obtain ⟨k, -, h⟩ := bind_eq_ok.1 h
      obtain ⟨values, -, h⟩ := bind_eq_ok.1 h
      cases h
      rfl
  | sort | skip | limit =>
      cases h
      rfl
  | constant | field | binary | unary | document | accumulator | correlated | source | extension => cases h

theorem operators_of_lower (h : lower e = .ok (collection, stages)) :
    stages.map Stage.operator = e.spine.map fun d => d.kind.stageOperator := by
  have hmap {ds : List Expr} {ss : List Stage} (hstages : List.Forall₂ (fun d stage => ownStage d = .ok stage) ds ss) :
      ss.map Stage.operator = ds.map fun d => d.kind.stageOperator := by
    induction hstages with
    | nil => rfl
    | cons hstage _ ih => exact congrArg₂ List.cons (operator_ownStage hstage) ih
  exact hmap (ownStages_of_lower h)

end Lowering

namespace Pipeline

variable {stages : List Stage} {f : List Stage → List Stage}

/-- Whatever is done to stages before they are sent, those stay in order that are never left out or merged. -/
theorem Tidies.filter_eq (hf : Tidies f) {p : Stage → Bool} (hp : ∀ s, p s = true → s.isSolid = true)
    (stages : List Stage) : (f stages).filter p = stages.filter p := by
  induction hlength : stages.length using Nat.strongRecOn generalizing stages with
  | ind n ih =>
      by_cases hnone : ∀ s ∈ stages, ¬p s = true
      · rw [List.filter_eq_nil_iff.2 hnone, List.filter_eq_nil_iff]
        exact fun s hs hps => hnone s (hf.mem_of_mem (hp s hps) hs) hps
      · push Not at hnone
        obtain ⟨s, hs, hps⟩ := hnone
        obtain ⟨xs, ys, rfl⟩ := List.append_of_mem hs
        rw [List.length_append, List.length_cons] at hlength
        rw [hf.split (hp s hps), List.filter_append, List.filter_append, List.filter_cons_of_pos hps,
          List.filter_cons_of_pos hps, ih _ (by omega) xs rfl, ih _ (by omega) ys rfl]

theorem Tidies.filterMap_eq {β : Type} (hf : Tidies f) {g : Stage → Option β}
    (hg : ∀ stage, stage.isSolid = false → g stage = none) (stages : List Stage) :
    (f stages).filterMap g = stages.filterMap g := by
  have hsolid (ss : List Stage) : (ss.filter Stage.isSolid).filterMap g = ss.filterMap g := by
    rw [List.filterMap_filter]
    refine List.filterMap_congr fun stage _ => ?_
    cases hkind : stage.isSolid with
    | true => rfl
    | false => exact (hg stage hkind).symm
  rw [← hsolid, hf.filter_eq fun _ h => h, hsolid]

end Pipeline

end Aggregation
