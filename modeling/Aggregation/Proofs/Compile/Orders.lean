import Aggregation.Proofs.Compile.Summary
import Aggregation.Proofs.Pipeline.Orders

/-!
The sorts that are sent. The body of each is made of the keys of one sort of the tree, so it orders documents as they do
unless a path comes back among the keys with another direction.
-/

namespace Aggregation

/-- The keys of a sort. -/
def Expr.sortKeys? : Expr → Option (List SortKey)
  | .sort _ _ keys => some keys
  | _ => none

/-- The body of a sort. -/
def Stage.sortBody? : Stage → Option Document
  | .sort body => some body
  | _ => none

theorem Stage.sortBody?_eq_none {stage : Stage} (h : stage.operator ≠ "$sort") : stage.sortBody? = none := by
  cases stage with
  | sort => exact absurd rfl h
  | filter | keep | group | project | skip | limit => rfl

/-- The stage of a sort is made of its keys, and no other stage is a sort. -/
theorem Lowering.sortBody?_ownStage {e : Expr} {stage : Stage} (h : ownStage e = .ok stage) :
    stage.sortBody? = e.sortKeys?.map fun keys => .ofList (keys.map sortField) := by
  cases e with
  | sort =>
      cases h
      rfl
  | filter | group | project | skip | limit =>
      refine Stage.sortBody?_eq_none ?_
      rw [operator_ownStage h]
      simp [Expr.kind, NodeKind.stageOperator]
  | constant | field | binary | unary | document | accumulator | correlated | source | extension => cases h

theorem Replaced.sortKeys?_eq {root d d' : Expr} {up : List Expr} (h : Replaced root up d d') :
    d'.sortKeys? = d.sortKeys? := by
  cases h with
  | correlated | filter | project | group => rfl
  | @kept _ _ hkind n children hlength =>
      cases d with
      | constant | field | document | accumulator | source | extension => rfl
      | binary =>
          obtain ⟨c, d, rfl⟩ := List.length_eq_two.1 hlength.symm
          rfl
      | correlated | filter | group | project => exact absurd (by simp [Expr.kind]) hkind
      | unary | sort | skip | limit =>
          obtain ⟨c, rfl⟩ := List.length_eq_one_iff.1 hlength.symm
          rfl

variable {config : Config} {id : String} {root : Expr} {s : Supply} {c : Compilation} {held : List Expr}

/-- Every sort of a tree that compiles is sent, in the order of the pipelines, with a body that is made of its keys:
every path is there once, where it is first, with the direction that is last. So there is a field for every key exactly
if no path comes back, and documents are ordered as the keys say, whatever compares them by a path, exactly if no path
comes back with another direction. -/
theorem sorts_ordered (hheld : Build.Held s held) (hroot : root ∈ held)
    (h : (compile config id root s).result = .ok c) :
    List.Forall₂ SortKey.Ordered (root.spine.filterMap Expr.sortKeys?)
      (c.pipeline.stages.filterMap Stage.sortBody?) := by
  refine forall₂_bodies hheld hroot h (fun stage hloose => ?_) fun {up d d' stage} hd _ hstage => ?_
  · cases stage with
    | keep | skip | limit => rfl
    | filter | group | project | sort => cases hloose
  · rw [Lowering.sortBody?_ownStage hstage, hd.sortKeys?_eq]
    cases d.sortKeys? with
    | none => exact .none
    | some keys => exact .some (SortKey.ordered_ofList keys)

/-- Orders by region, then the largest quantity first, then by region again. -/
def regionsTwice : Query :=
  ⟨"orders", [.sort [⟨"region", .ascending⟩, ⟨"qty", .descending⟩, ⟨"region", .ascending⟩], .limit 3]⟩

/-- A path that comes back in its direction is left out, and nothing changes. -/
theorem sorts_ordered_regionsTwice : ∃ root s held c keys body, Build.Held s held ∧ root ∈ held ∧
    (compile {} "" root s).result = .ok c ∧ root.spine.filterMap Expr.sortKeys? = [keys] ∧
    c.pipeline.stages.filterMap Stage.sortBody? = [body] ∧
    body = ⟨[("region", .int32 1), ("qty", .int32 (-1))]⟩ ∧ SortKey.Ordered keys body := by
  obtain ⟨root, s, c, hbuild, hcompile, hcheck⟩ := exists_compiled (x := regionsTwice.build)
    (p := fun root c => decide (c.pipeline.stages.filterMap Stage.sortBody?
      = [⟨[("region", .int32 1), ("qty", .int32 (-1))]⟩])) (by decide +kernel)
  obtain ⟨held, hheld, hroot⟩ := Query.exists_held_of_build hbuild
  have hbodies := of_decide_eq_true hcheck
  have hordered := sorts_ordered hheld hroot hcompile
  rw [hbodies] at hordered
  obtain ⟨keys, rest, hkeys, hrest, heq⟩ := List.forall₂_cons_right_iff.1 hordered
  cases hrest
  exact ⟨root, s, held, c, keys, _, hheld, hroot, hcompile, heq, hbodies, rfl, hkeys⟩

/-- Orders by one path in both directions. -/
def bothDirections : Query := ⟨"orders", [.sort [⟨"a", .ascending⟩, ⟨"a", .descending⟩]]⟩

/-- A path that comes back in the other direction turns the order around: there is one field for two keys, and documents
that differ at the path come out in the other order. -/
theorem sorts_ordered_bothDirections_ne : ∃ root s held c keys body read C rows, Build.Held s held ∧ root ∈ held ∧
    (compile {} "" root s).result = .ok c ∧ root.spine.filterMap Expr.sortKeys? = [keys] ∧
    keys = [⟨"a", .ascending⟩, ⟨"a", .descending⟩] ∧ c.pipeline.stages.filterMap Stage.sortBody? = [body] ∧
    body = ⟨[("a", .int32 (-1))]⟩ ∧ Reading.sortKeys? body.entries = some read ∧
    SortKey.arrange C keys rows = [.empty, .single "a" .null] ∧
    SortKey.arrange C read rows = [.single "a" .null, .empty] := by
  obtain ⟨root, s, c, hbuild, hcompile, hcheck⟩ := exists_compiled (x := bothDirections.build)
    (p := fun root c => decide (root.spine.filterMap Expr.sortKeys? = [[⟨"a", .ascending⟩, ⟨"a", .descending⟩]] ∧
      c.pipeline.stages.filterMap Stage.sortBody? = [⟨[("a", .int32 (-1))]⟩])) (by decide +kernel)
  obtain ⟨held, hheld, hroot⟩ := Query.exists_held_of_build hbuild
  obtain ⟨hkeys, hbodies⟩ := of_decide_eq_true hcheck
  have hfirst : SortKey.firstAt? [⟨"a", .ascending⟩, ⟨"a", .descending⟩] "a" = some ⟨"a", .ascending⟩ := by decide
  have hread : SortKey.firstAt? [⟨"a", .descending⟩] "a" = some ⟨"a", .descending⟩ := by decide
  exact ⟨root, s, held, c, _, _, _, _, _, hheld, hroot, hcompile, hkeys, rfl, hbodies, rfl, by decide +kernel,
    SortKey.arrange_sizesAt hfirst, SortKey.arrange_sizesAt hread⟩

end Aggregation
