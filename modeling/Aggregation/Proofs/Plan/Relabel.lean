import Aggregation.Proofs.Plan.Groups

/-!
What planning makes of trees that are given other serials and other scopes. The plans are those that there were, with
their scopes renamed, and what they settle is given the same new serials and scopes.
-/

namespace Aggregation

open Aggregation.Expr (relabel relabelEntries isGroupOf isTiedTo)
open GroupPlan (sharedName?)

variable {σ : Nat → Nat} {ρ : Scope → Scope} {stem : String} {root e : Expr}

/-- A plan for trees that have been given other serials and other scopes. -/
def GroupPlan.relabel (σ : Nat → Nat) (ρ : Scope → Scope) (p : GroupPlan) : GroupPlan :=
  ⟨ρ p.scope, relabelEntries σ ρ p.outputs, p.occurrences⟩

theorem Expr.scopes_relabel (e : Expr) : (e.relabel σ ρ).scopes = e.scopes.map ρ := by
  have hscope (d : Expr) : (d.relabel σ ρ).groupScope? = d.groupScope?.map ρ := by
    cases d <;> rfl
  rw [scopes, scopes, chain_relabel, List.filterMap_map, List.map_reverse, List.map_filterMap]
  exact congrArg (fun f => (e.chain.filterMap f).reverse) (funext hscope)

section Plans

variable (hρ : Function.Injective ρ)

include hρ in
theorem accumulators_relabel (root : Expr) (scope : Scope) :
    (CorrelationMap.collect (root.relabel σ ρ)).accumulators (ρ scope)
      = ((CorrelationMap.collect root).accumulators scope).map (Expr.relabel σ ρ) := by
  rw [CorrelationMap.accumulators_collect, CorrelationMap.accumulators_collect, Expr.visible_relabel, List.filter_map]
  exact congrArg (fun p => (root.visible.filter p).map _) (funext fun e => Expr.isTiedTo_relabel hρ scope e)

include hρ in
theorem outputsOf_relabel (root : Expr) (scope : Scope) :
    (root.relabel σ ρ).outputsOf (ρ scope) = relabelEntries σ ρ (root.outputsOf scope) := by
  have hgroup : isGroupOf (ρ scope) ∘ Expr.relabel σ ρ = isGroupOf scope :=
    funext fun e => Expr.isGroupOf_relabel hρ scope e
  rw [Expr.outputsOf, Expr.outputsOf, Expr.occurrences_relabel, List.find?_map, hgroup, Expr.relabelEntries_eq]
  cases root.occurrences.find? (isGroupOf scope) with
  | none => rfl
  | some g => exact Expr.outputs_relabel g

include hρ in
/-- The outputs of a scope are named in the same way. -/
theorem outputs_ofScope_relabel (stem : String) (root : Expr) (scope : Scope) (old : List (String × Expr)) :
    (GroupPlan.ofScope stem (ρ scope) (relabelEntries σ ρ old)
      ((CorrelationMap.collect (root.relabel σ ρ)).accumulators (ρ scope)) []).1.outputs
        = relabelEntries σ ρ
          (GroupPlan.ofScope stem scope old ((CorrelationMap.collect root).accumulators scope) []).1.outputs := by
  rw [Expr.relabelEntries_eq, Expr.relabelEntries_eq, accumulators_relabel hρ]
  refine GroupPlan.outputs_ofScope_map (Expr.sameStructure_relabel hρ) (List.forall₂_map_right_iff.2 ?_)
  refine List.forall₂_same.2 fun d hd => ?_
  rw [CorrelationMap.accumulators_collect] at hd
  obtain ⟨i, inner, rfl⟩ := Expr.exists_of_isTiedTo (List.of_mem_filter hd)
  exact ⟨i, _, scope, _, inner, rfl, rfl⟩

include hρ in
theorem GroupPlan.of_relabel (root : Expr) (scope : Scope) :
    GroupPlan.of stem (root.relabel σ ρ) (ρ scope) = (GroupPlan.of stem root scope).relabel σ ρ := by
  have houtputs := outputs_ofScope_relabel (σ := σ) hρ stem root scope (root.outputsOf scope)
  have hcount : ((CorrelationMap.collect (root.relabel σ ρ)).accumulators (ρ scope)).length
      = ((CorrelationMap.collect root).accumulators scope).length := by
    rw [accumulators_relabel hρ, List.length_map]
  rw [GroupPlan.of, outputsOf_relabel hρ]
  exact congrArg₂ (GroupPlan.mk (ρ scope)) houtputs hcount

include hρ in
theorem namesOutputs_relabel (root : Expr) :
    Binding.NamesOutputs stem (root.relabel σ ρ) ↔ Binding.NamesOutputs stem root := by
  unfold Binding.NamesOutputs
  constructor
  · intro h i input key scope old hmem
    have hmem' : (Expr.group i input key scope old).relabel σ ρ ∈ (root.relabel σ ρ).occurrences := by
      rw [Expr.occurrences_relabel]
      exact List.mem_map_of_mem hmem
    have hnames := h _ _ _ _ _ hmem'
    rw [outputs_ofScope_relabel hρ, Expr.forall_mem_relabelEntries] at hnames
    exact hnames
  · intro h i input key scope old hmem
    rw [Expr.occurrences_relabel] at hmem
    obtain ⟨g, hg, heq⟩ := List.mem_map.1 hmem
    have hkind : g.kind = .group := by rw [← Expr.kind_relabel (σ := σ) (ρ := ρ), heq]; rfl
    obtain ⟨j, input', key', scope', old', rfl⟩ := Expr.exists_of_kind_eq_group hkind
    cases heq
    rw [outputs_ofScope_relabel hρ, Expr.forall_mem_relabelEntries]
    exact h _ _ _ _ _ hg

variable {outs outs' : Scope → List (String × Expr)}

include hρ in
/-- What renamed outputs settle in a renamed tree is what the outputs settle in the tree, renamed. -/
theorem Expr.settle_relabel (houts : ∀ scope, outs' (ρ scope) = relabelEntries σ ρ (outs scope)) (e : Expr) :
    (e.relabel σ ρ).settle outs' = (e.settle outs).relabel σ ρ := by
  induction e using Expr.induction_children with
  | step e ih =>
      by_cases hc : e.kind = .correlated
      · obtain ⟨i, scope, inner, rfl⟩ := exists_of_kind_eq_correlated hc
        have hname : sharedName? (outs' (ρ scope)) (inner.relabel σ ρ) = sharedName? (outs scope) inner := by
          rw [houts, relabelEntries_eq, GroupPlan.sharedName?_map (sameStructure_relabel hρ)]
        rw [Expr.relabel, settle_correlated, settle_correlated, hname]
        rfl
      by_cases hg : e.kind = .group
      · obtain ⟨i, input, key, scope, old, rfl⟩ := exists_of_kind_eq_group hg
        rw [Expr.relabel, settle_group, settle_group, ih input List.mem_cons_self,
          ih key (List.mem_cons_of_mem _ List.mem_cons_self), houts]
        rfl
      · have hchildren : (e.children.map (Expr.relabel σ ρ)).map (settle outs')
            = (e.children.map (settle outs)).map (Expr.relabel σ ρ) := by
          rw [List.map_map, List.map_map]
          exact List.map_congr_left ih
        rw [settle_kept (by rwa [kind_relabel]) (by rwa [kind_relabel]), settle_kept hc hg, info_relabel,
          children_relabel, hchildren, withChildren_relabel hc hg (by simp),
          relabel_withChildren hc hg (List.length_map _)]

end Plans

section Trees

variable {planned : PlannedTree} {lo : Nat} {s t : Supply}

/-- The planned tree and its plans without serials go by the tree without serials. -/
theorem bare_of_plan (hρ : Function.Injective ρ) (hfresh : Fresh lo s.nextNode root.occurrences) (hw : root.WellFormed)
    (hnative : root.Native) (hpipeline : root.isPipeline = true) (h : (plan stem root).run s = .ok (planned, t)) :
    planned.root.bare ρ = (root.bare ρ).settle (fun scope => (GroupPlan.of stem (root.bare ρ) scope).outputs) ∧
      planned.groups.map (GroupPlan.relabel (fun _ => 0) ρ)
        = (root.bare ρ).scopes.map (GroupPlan.of stem (root.bare ρ)) := by
  obtain ⟨hroot, hgroups⟩ := settled_of_plan hfresh hw hnative hpipeline h
  constructor
  · have hrenamed := congrArg (Expr.relabel (fun _ => 0) ρ) hroot
    rw [Expr.bare, Expr.bare, Expr.relabel_relabel, Expr.relabel_relabel] at hrenamed
    refine hrenamed.trans (Expr.settle_relabel hρ (fun scope => ?_) root).symm
    rw [Expr.bare, GroupPlan.of_relabel hρ]
    rfl
  · rw [hgroups, Expr.bare, Expr.scopes_relabel, List.map_map, List.map_map]
    exact List.map_congr_left fun scope _ => (GroupPlan.of_relabel hρ root scope).symm

end Trees

end Aggregation
