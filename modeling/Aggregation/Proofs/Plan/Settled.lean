import Aggregation.Proofs.Expr.Relabel
import Aggregation.Proofs.Plan.Completeness
import Aggregation.Proofs.Plan.Soundness

/-!
What planning makes of a tree, told from the tree alone. The outputs of a scope go by its group and its accumulators,
and these outputs settle what becomes of every node but for its serial; so neither the supply nor the order in which
nodes were bound matters.
-/

namespace Aggregation

open Aggregation.Expr (isGroupOf)
open GroupPlan (sharedName?)

namespace Expr

/-- The scope of a group. -/
def groupScope? : Expr → Option Scope
  | .group _ _ _ scope _ => some scope
  | _ => none

/-- The scopes of the groups of a tree, that of the group which documents pass first at the front. -/
def scopes (e : Expr) : List Scope := (e.chain.filterMap groupScope?).reverse

/-- The outputs that the group of a scope has before planning. -/
def outputsOf (root : Expr) (scope : Scope) : List (String × Expr) :=
  ((root.occurrences.find? (isGroupOf scope)).map outputs).getD []

/-- A tree in which groups have given outputs, and accumulators that are tied to scopes are fields of these. -/
def settle (outs : Scope → List (String × Expr)) (e : Expr) : Expr :=
  match _h : e with
  | .correlated i scope inner => .field i ((sharedName? (outs scope) inner).getD "")
  | .group i input key scope _ => .group i (settle outs input) (settle outs key) scope (outs scope)
  | _ => e.withChildren e.info (e.children.attach.map fun ⟨c, _⟩ => settle outs c)
termination_by sizeOf e
decreasing_by
  all_goals subst _h
  · exact sizeOf_lt_of_mem_children (by simp [children])
  · exact sizeOf_lt_of_mem_children (by simp [children])
  · exact sizeOf_lt_of_mem_children ‹_›

variable {e : Expr} {outs : Scope → List (String × Expr)}

theorem settle_correlated (i : NodeInfo) (scope : Scope) (inner : Expr) :
    settle outs (.correlated i scope inner) = .field i ((sharedName? (outs scope) inner).getD "") := by
  rw [settle]

theorem settle_group (i : NodeInfo) (input key : Expr) (scope : Scope) (old : List (String × Expr)) :
    settle outs (.group i input key scope old) = .group i (settle outs input) (settle outs key) scope (outs scope) := by
  rw [settle]

theorem settle_kept (hc : e.kind ≠ .correlated) (hg : e.kind ≠ .group) :
    settle outs e = e.withChildren e.info (e.children.map (settle outs)) := by
  rw [settle, List.map_attach_eq_pmap, List.pmap_eq_map]
  · exact fun i scope inner h => hc (h ▸ rfl)
  · exact fun i input key scope old h => hg (h ▸ rfl)

end Expr

/-- The plan of a scope, told from the tree. -/
def GroupPlan.of (stem : String) (root : Expr) (scope : Scope) : GroupPlan :=
  (GroupPlan.ofScope stem scope (root.outputsOf scope) ((CorrelationMap.collect root).accumulators scope) []).1

namespace Binding

variable {stem : String} {live : Scope → List Expr} {root e e' input input' : Expr} {up : List Expr} {lo n : Nat}
  {b b' : State} {s t : Supply} {scope : Scope} {outs : Scope → List (String × Expr)}

section Scalars

/-- An update over settled children makes a settled node. -/
theorem settled_of_update {children : List Expr} (hc : e.kind ≠ .correlated) (hg : e.kind ≠ .group)
    (hlt : ∀ c ∈ e.children, c.serial < n)
    (hnew : List.Forall₂ (fun c c' => c' = c ∨ n ≤ c'.serial) e.children children)
    (hbare : children.map (Expr.bare id) = (e.children.map (Expr.settle outs)).map (Expr.bare id))
    (h : (e.update children).run s = .ok (e', t)) : e'.bare id = (e.settle outs).bare id := by
  have hsettled : (e.settle outs).bare id = e.withChildren ⟨0, e.type⟩ (children.map (Expr.bare id)) := by
    rw [Expr.settle_kept hc hg, hbare]
    exact Expr.relabel_withChildren hc hg (List.length_map _)
  rw [hsettled]
  obtain ⟨hlength, hnode⟩ := Expr.update_run_iff.1 h
  split at hnode
  · next hover =>
    have hsame : children = e.children :=
      eq_of_serials hnew hlt fun p hp => beq_iff_eq.1 (List.all_eq_true.1 hover p hp)
    rw [hnode.1, hsame]
    exact Expr.relabel_kept hc hg
  · rw [hnode.1]
    exact Expr.relabel_withChildren hc hg hlength

theorem map_bare_of_mapM {cs cs' : List Expr}
    (ih : ∀ c ∈ cs, ∀ {s t : Supply} {c' : Expr} {b' : State}, n ≤ s.nextNode →
      ((bind stem live c).run b).run s = .ok ((c', b'), t) →
        b' = b ∧ s.nextNode ≤ t.nextNode ∧ c'.bare id = (c.settle outs).bare id) (hn : n ≤ s.nextNode)
    (h : ((cs.mapM (bind stem live)).run b).run s = .ok ((cs', b'), t)) :
    cs'.map (Expr.bare id) = (cs.map (Expr.settle outs)).map (Expr.bare id) := by
  induction cs generalizing s cs' with
  | nil =>
      obtain ⟨rfl, rfl, rfl⟩ := run_mapM_nil_eq_ok.1 h
      rfl
  | cons c rest ihrest =>
      obtain ⟨c', rest', b₁, u, hc, hrest, rfl⟩ := run_mapM_cons_eq_ok.1 h
      obtain ⟨rfl, hle, hbare⟩ := ih c List.mem_cons_self hn hc
      rw [List.map_cons, List.map_cons, List.map_cons, hbare,
        ihrest (fun d hd => ih d (List.mem_cons_of_mem _ hd)) (Nat.le_trans hn hle) hrest]

/-- A scalar is settled by the outputs of the groups that have been passed. -/
theorem scalar_settled (hroot : Fresh lo n root.occurrences) (hready : Ready root up b)
    (hup : ∀ scope, ∀ g ∈ up, isGroupOf scope g = true → g.outputs = outs scope) (hw : e.WellFormed)
    (hnative : e.Native) (hscalar : e.isPipeline = false) (hsub : ∀ d ∈ e.occurrences, d ∈ root.occurrences)
    (hn : n ≤ s.nextNode) (h : ((bind stem live e).run b).run s = .ok ((e', b'), t)) :
    e'.bare id = (e.settle outs).bare id := by
  induction e using Expr.induction_children generalizing s t e' b' with
  | step e ih =>
      by_cases hc : e.kind = .correlated
      · obtain ⟨i, scope, inner, rfl⟩ := Expr.exists_of_kind_eq_correlated hc
        rw [bind_correlated] at h
        obtain ⟨hbound, rfl, name, hname, hfield⟩ := readOutput_eq_ok.1 h
        obtain ⟨-, rfl, rfl⟩ := Build.field_run_iff.1 hfield
        obtain ⟨name', hname', g, hg, hgroup, hfirst⟩ :=
          hready.read i scope inner (hsub _ (Expr.mem_occurrences_self _)) hbound
        cases hname.symm.trans hname'
        rw [Expr.settle_correlated, ← hup scope g hg hgroup, hfirst]
        rfl
      · have hg : e.kind ≠ .group := fun hg => by
          rw [Expr.isPipeline, hg] at hscalar
          cases hscalar
        have hchild {c : Expr} (hmem : c ∈ e.children) : c.WellFormed ∧ c.Native ∧ c.isPipeline = false ∧
            ∀ d ∈ c.occurrences, d ∈ root.occurrences :=
          ⟨hw.child hmem, hnative.child hmem,
            Expr.isPipeline_child_eq_false hw.checked (Expr.native_iff.1 hnative).1 hscalar hmem,
            fun d hd => hsub d (Expr.mem_occurrences_of_child hmem hd)⟩
        have hsound : ∀ c ∈ e.children, ∀ {s t : Supply} {c' : Expr} {b' : State}, n ≤ s.nextNode →
            ((bind stem live c).run b).run s = .ok ((c', b'), t) → b' = b ∧ Turned root n up c c' s t :=
          fun c hmem {_ _ _ _} hns hrun => by
            obtain ⟨hwc, hnc, hsc, hsubc⟩ := hchild hmem
            exact scalar_sound hroot hready hwc hnc hsc hsubc hns hrun
        rw [bind_kept _ _ hc hg] at h
        obtain ⟨children, c, u, hchildren, h⟩ := run_bind_eq_ok.1 h
        obtain ⟨hupdate, rfl⟩ := run_build_eq_ok.1 h
        obtain ⟨-, -, -, hnew, -⟩ := mapM_sound hn hsound hchildren
        have hbare : children.map (Expr.bare id) = (e.children.map (Expr.settle outs)).map (Expr.bare id) := by
          refine map_bare_of_mapM (n := n) (fun c hmem {_ _ _ _} hns hrun => ?_) hn hchildren
          obtain ⟨hwc, hnc, hsc, hsubc⟩ := hchild hmem
          obtain ⟨hb, hturned⟩ := hsound c hmem hns hrun
          exact ⟨hb, hturned.supply_le, ih c hmem hwc hnc hsc hsubc hns hrun⟩
        exact settled_of_update hc hg (serial_lt_of_child hroot hsub) hnew hbare hupdate

end Scalars

section Groups

theorem scopes_group (i : NodeInfo) (input key : Expr) (scope : Scope) (old : List (String × Expr)) :
    (Expr.group i input key scope old).scopes = input.scopes ++ [scope] := by
  rw [Expr.scopes, Expr.scopes, Expr.chain, List.filterMap_cons]
  exact List.reverse_cons

/-- The plan of a group is the one that is told from the tree, if its scope has no other group. -/
theorem plan_eq_of (stem : String) {i : NodeInfo} {key : Expr} {old : List (String × Expr)}
    (hroot : Fresh lo n root.occurrences)
    (hone : root.occurrences.countP (isGroupOf scope) ≤ 1) (hmem : Expr.group i input key scope old ∈ root.occurrences)
    (bindings : Bindings) :
    (GroupPlan.ofScope stem scope old ((CorrelationMap.collect root).accumulators scope) bindings).1
      = GroupPlan.of stem root scope := by
  obtain ⟨hkind, -⟩ := accumulators_sound hroot scope
  have hself : isGroupOf scope (.group i input key scope old) = true := decide_eq_true rfl
  have hold : root.outputsOf scope = old := by
    rw [Expr.outputsOf]
    cases hfind : root.occurrences.find? (isGroupOf scope) with
    | none => exact absurd hself (List.find?_eq_none.1 hfind _ hmem)
    | some g =>
        rw [eq_of_countP_le_one hone (List.mem_of_find?_eq_some hfind) hmem (List.find?_some hfind) hself]
        rfl
  rw [GroupPlan.of, hold]
  exact congrArg (GroupPlan.mk scope · _) (GroupPlan.outputs_ofScope_eq scope hkind bindings [])

end Groups

end Binding

end Aggregation
