import Aggregation.Proofs.Compile.Summary
import Aggregation.Proofs.Pipeline.Relabel
import Aggregation.Proofs.Plan.Relabel
import Aggregation.Proofs.Query.Twins

/-!
Which scopes were minted does not matter to what is sent. Scopes only tie accumulators to groups: a tree whose scopes
have been renamed is compiled as the tree was, to the same pipeline, and so is a query that is built again.
-/

namespace Aggregation

open Aggregation.Expr (bare relabelEntries isGroupOf)
open Query (shift shift_injective)

variable {ρ ρ' : Scope → Scope} {config : Config} {name name' stem : String} {root root' : Expr} {lo lo' : Nat}
  {s u : Supply} {c : Compilation}

theorem toOption_eq_some {ε α : Type} {x : Except ε α} {a : α} : x.toOption = some a ↔ x = .ok a := by
  cases x with
  | error e => exact iff_of_false nofun nofun
  | ok b => exact Option.some_inj.trans ⟨congrArg _, Except.ok.inj⟩

namespace Expr.Twin

variable (hρ : Function.Injective ρ) (hρ' : Function.Injective ρ') (h : root.Twin ρ ρ' root')

include h in
theorem native (hnative : root.Native) : root'.Native := by
  have hbare : (root.bare ρ).Native := (native_relabel root).2 hnative
  rw [h] at hbare
  exact (native_relabel root').1 hbare

include h in
theorem wellFormed (hw : root.WellFormed) : root'.WellFormed := by
  have hbare : (root.bare ρ).WellFormed := (wellFormed_relabel root).2 hw
  rw [h] at hbare
  exact (wellFormed_relabel root').1 hbare

include h in
theorem isPipeline_eq : root'.isPipeline = root.isPipeline := by
  have hbare := congrArg Expr.isPipeline h
  rw [bare, bare, isPipeline_relabel, isPipeline_relabel] at hbare
  exact hbare.symm

include hρ hρ' h in
/-- What planning asks of the places of nodes holds of a twin too. -/
theorem plannable (hone : ∀ scope, root.occurrences.countP (isGroupOf scope) ≤ 1) (hanchored : root.Anchored)
    (hnames : Binding.NamesOutputs stem root) :
    (∀ scope, root'.occurrences.countP (isGroupOf scope) ≤ 1) ∧ root'.Anchored ∧ Binding.NamesOutputs stem root' := by
  have hone' : ∀ scope, (root.bare ρ).occurrences.countP (isGroupOf scope) ≤ 1 := (countP_le_one_relabel hρ root).2 hone
  have hanchored' : (root.bare ρ).Anchored := (anchored_relabel hρ root).2 hanchored
  have hnames' : Binding.NamesOutputs stem (root.bare ρ) := (namesOutputs_relabel hρ root).2 hnames
  rw [h] at hone' hanchored' hnames'
  exact ⟨(countP_le_one_relabel hρ' root').1 hone', (anchored_relabel hρ' root').1 hanchored',
    (namesOutputs_relabel hρ' root').1 hnames'⟩

end Expr.Twin

/-- A twin of a tree that is compiled becomes the same pipeline, by plans that are given the same new scopes. -/
theorem exists_compile_of_twin (name' : String) (hρ : Function.Injective ρ) (hρ' : Function.Injective ρ')
    (hfresh : Fresh lo s.nextNode root.occurrences) (hw : root.WellFormed)
    (hfresh' : Fresh lo' u.nextNode root'.occurrences) (htwin : root.Twin ρ ρ' root')
    (h : (compile config name root s).result = .ok c) :
    ∃ c', (compile config name' root' u).result = .ok c' ∧ c'.pipeline = c.pipeline ∧ c'.eliminated = c.eliminated ∧
      c'.groups.map (GroupPlan.relabel (fun _ => 0) ρ') = c.groups.map (GroupPlan.relabel (fun _ => 0) ρ) := by
  obtain ⟨hnative, planned, t, hplan, hemit, hgroups⟩ := compile_result_eq_ok.1 h
  obtain ⟨hreplaced, -⟩ := turned_of_plan hfresh hw hnative hplan
  have hpipeline := isPipeline_of_emit hfresh hw hnative hplan hemit
  have hnative' := htwin.native hnative
  have hw' := htwin.wellFormed hw
  have hpipeline' := htwin.isPipeline_eq.trans hpipeline
  obtain ⟨hone', hanchored', hnames'⟩ := htwin.plannable hρ hρ' (countP_isGroupOf_le_one hw hnative hplan)
    (hreplaced.anchored hw hnative) (namesOutputs_of_plan hfresh hw hnative hpipeline hplan)
  obtain ⟨planned', t', hplan'⟩ : ∃ planned t, (plan config.stem root').run u = .ok (planned, t) :=
    exists_plan_of_anchored hfresh' hw' hnative' hpipeline' hnames' hone' hanchored'
  -- both planned trees are settled by one tree without serials
  obtain ⟨hbare, hplans⟩ := bare_of_plan hρ hfresh hw hnative hpipeline hplan
  obtain ⟨hbare', hplans'⟩ := bare_of_plan hρ' hfresh' hw' hnative' hpipeline' hplan'
  rw [← htwin] at hbare' hplans'
  have hemit' : emit config.eliminates planned'.root = emit config.eliminates planned.root := by
    rw [← emit_relabel config.eliminates planned'.root, ← emit_relabel config.eliminates planned.root]
    exact congrArg _ (hbare'.trans hbare.symm)
  refine ⟨⟨c.pipeline, planned'.groups, c.eliminated⟩, ?_, rfl, rfl, ?_⟩
  · exact compile_result_eq_ok.2 ⟨hnative', planned', t', hplan', hemit'.trans hemit, rfl⟩
  · rw [hgroups]
    exact hplans'.trans hplans.symm

section Outputs

/-- A tree without scopes is the same whatever scopes are given new ones. -/
theorem Expr.relabel_eq_of_scopeless {σ : Nat → Nat} {e : Expr}
    (h : ∀ d ∈ e.occurrences, ¬(d.kind = .correlated ∨ d.kind = .group)) : e.relabel σ ρ = e.relabel σ ρ' := by
  induction e using Expr.induction_children with
  | step e ih =>
      obtain ⟨hc, hg⟩ := not_or.1 (h e (mem_occurrences_self e))
      rw [relabel_kept hc hg, relabel_kept hc hg]
      congr 1
      exact List.map_congr_left fun c hc => ih c hc fun d hd => h d (mem_occurrences_of_child hc hd)

/-- The outputs of a plan are accumulators that obey their rules. -/
theorem GroupPlan.of_sound (hfresh : Fresh lo s.nextNode root.occurrences) (hw : root.WellFormed)
    (hnative : root.Native) (scope : Scope) :
    ∀ f ∈ (GroupPlan.of stem root scope).outputs, f.2.WellFormed ∧ f.2.Native ∧ f.2.kind = .accumulator := by
  obtain ⟨hkind, hsame⟩ := Binding.accumulators_sound hfresh scope
  obtain ⟨naming, hassigned, hplan⟩ : ∃ naming, GroupPlan.Assigned stem (root.outputsOf scope) [] _ naming ∧
      GroupPlan.ofScope stem scope (root.outputsOf scope) ((CorrelationMap.collect root).accumulators scope) [] = _ :=
    GroupPlan.assigned_ofScope scope [] hkind hsame
  obtain ⟨⟨new, houtputs, hadds⟩, -⟩ := hassigned
  obtain ⟨hold, hnodup⟩ : (∀ f ∈ root.outputsOf scope, f.2.WellFormed ∧ f.2.Native ∧ f.2.kind = .accumulator) ∧
      ((root.outputsOf scope).map Prod.fst).Nodup := by
    rw [Expr.outputsOf]
    cases hfind : root.occurrences.find? (isGroupOf scope) with
    | none => exact ⟨List.forall_mem_nil _, List.nodup_nil⟩
    | some g =>
        have hmem := List.mem_of_find?_eq_some hfind
        obtain ⟨i, input, key, sc, old, rfl⟩ :=
          Expr.exists_of_kind_eq_group (Expr.kind_eq_group_of_isGroupOf (List.find?_some hfind))
        exact ⟨Replaced.outputs_sound (fun d hd => hw d (Expr.mem_occurrences_trans hmem hd))
          fun d hd => hnative d (Expr.mem_occurrences_trans hmem hd), (hw _ hmem).2.2.2.2.1⟩
  rw [GroupPlan.of, hplan]
  show ∀ f ∈ naming.outputs, _
  rw [houtputs]
  exact List.forall_mem_append.2 ⟨hold, Replaced.added_sound hw hnative (Binding.added_of_adds hnodup hadds)⟩

theorem outputs_of_compile (hfresh : Fresh lo s.nextNode root.occurrences) (hw : root.WellFormed)
    (h : (compile config name root s).result = .ok c) :
    ∀ p ∈ c.groups, ∀ f ∈ p.outputs, f.2.WellFormed ∧ f.2.Native ∧ f.2.kind = .accumulator := by
  obtain ⟨hnative, planned, t, hplan, hemit, hgroups⟩ := compile_result_eq_ok.1 h
  have hpipeline := isPipeline_of_emit hfresh hw hnative hplan hemit
  rw [hgroups, (settled_of_plan hfresh hw hnative hpipeline hplan).2]
  exact List.forall_mem_map.2 fun scope _ => GroupPlan.of_sound hfresh hw hnative scope

/-- Accumulators have no scopes, so that they are left as they are by new ones. -/
theorem agreeEntries_of_relabelEntries_eq {fs fs' : List (String × Expr)}
    (hfs : ∀ f ∈ fs, f.2.WellFormed ∧ f.2.Native ∧ f.2.kind = .accumulator)
    (h : relabelEntries (fun _ => 0) id fs' = relabelEntries (fun _ => 0) ρ fs) :
    Expr.agreeEntries Value.same fs fs' = true := by
  have hself : relabelEntries (fun _ => 0) id fs = relabelEntries (fun _ => 0) ρ fs := by
    rw [Expr.relabelEntries_eq, Expr.relabelEntries_eq]
    refine List.map_congr_left fun f hf => congrArg (Prod.mk f.1) (Expr.relabel_eq_of_scopeless fun d hd => ?_)
    obtain ⟨hw, hn, hkind⟩ := hfs f hf
    exact Replaced.not_mem_accumulator hw hn hkind hd
  exact (Expr.agreeEntries_same_iff fs fs').2 (hself.trans h.symm)

end Outputs

/-- What a query text becomes from a supply, if it is not rejected: the pipeline, and the stages that were left out. -/
def Query.translate? (config : Config) (name : String) (s : Supply) (text : String) :
    Option (Pipeline × List Elimination) := do
  let q ← (Query.ofText text).toOption
  let (root, t) ← (q.build.run s).toOption
  let c ← (compile config name root t).result.toOption
  return (c.pipeline, c.eliminated)

theorem translate?_eq_some {text : String} {r : Pipeline × List Elimination} :
    Query.translate? config name s text = some r ↔
      ∃ q root t c, Query.ofText text = .ok q ∧ q.build.run s = .ok (root, t) ∧
        (compile config name root t).result = .ok c ∧ (c.pipeline, c.eliminated) = r := by
  simp only [Query.translate?, Option.bind_eq_bind, Option.bind_eq_some_iff, toOption_eq_some, Option.pure_def,
    Option.some_inj, Prod.exists, exists_and_left]

theorem translate?_of_eq_some {text : String} {r : Pipeline × List Elimination}
    (h : Query.translate? config name s text = some r) (name' : String) (u : Supply) :
    Query.translate? config name' u text = some r := by
  obtain ⟨q, root, t, c, htext, hbuild, hcompile, rfl⟩ := translate?_eq_some.1 h
  obtain ⟨root', v, hbuild', htwin⟩ := Query.exists_twin_of_build hbuild u
  obtain ⟨held, hheld, hroot⟩ := Query.exists_held_of_build hbuild
  obtain ⟨held', hheld', hroot'⟩ := Query.exists_held_of_build hbuild'
  obtain ⟨c', hcompile', hpipeline, heliminated, -⟩ := exists_compile_of_twin name' (shift_injective _)
    (shift_injective _) (hheld.fresh hroot) (hheld.wellFormed hroot) (hheld'.fresh hroot') htwin hcompile
  exact translate?_eq_some.2 ⟨q, root', v, c', htext, hbuild', hcompile', by rw [hpipeline, heliminated]⟩

/-- What a tree is compiled to after its scopes have been renamed: the same pipeline with the same stages left out, and
the same plans in the same order for the renamed scopes, with outputs of the same names and structure and with as many
occurrences. -/
structure Compilation.Renamed (ρ : Scope → Scope) (c c' : Compilation) : Prop where
  pipeline_eq : c'.pipeline = c.pipeline
  eliminated_eq : c'.eliminated = c.eliminated
  groups : List.Forall₂ (fun p p' => p'.scope = ρ p.scope ∧ p'.occurrences = p.occurrences ∧
    Expr.agreeEntries Value.same p.outputs p'.outputs = true) c.groups c'.groups

theorem Compilation.Renamed.scopes_eq {c' : Compilation} (h : c.Renamed ρ c') :
    c'.groups.map GroupPlan.scope = (c.groups.map GroupPlan.scope).map ρ := by
  have hall : List.Forall₂ (· = ·) (c'.groups.map GroupPlan.scope) (c.groups.map (ρ ∘ GroupPlan.scope)) :=
    List.forall₂_map_left_iff.2 (List.forall₂_map_right_iff.2 (h.groups.flip.imp fun _ _ hp => hp.1))
  rw [List.forall₂_eq_eq_eq] at hall
  rw [hall, List.map_map]

theorem exists_renamed (name' : String) (hρ : Function.Injective ρ) (hfresh : Fresh lo s.nextNode root.occurrences)
    (hw : root.WellFormed) (hfresh' : Fresh lo' u.nextNode root'.occurrences)
    (hsame : (root.rename ρ).sameStructure root' = true) (h : (compile config name root s).result = .ok c) :
    ∃ c', (compile config name' root' u).result = .ok c' ∧ c.Renamed ρ c' := by
  have htwin : root.Twin ρ id root' := by
    have hbare := (Expr.agree_same_iff _ _).1 hsame
    rwa [Expr.rename, Expr.bare_relabel] at hbare
  obtain ⟨c', h', hpipeline, heliminated, hplans⟩ :=
    exists_compile_of_twin name' hρ Function.injective_id hfresh hw hfresh' htwin h
  refine ⟨c', h', hpipeline, heliminated, ?_⟩
  have hgroups : List.Forall₂ (fun p p' => GroupPlan.relabel (fun _ => 0) ρ p = GroupPlan.relabel (fun _ => 0) id p')
      c.groups c'.groups := by
    refine List.forall₂_map_right_iff.1 (List.forall₂_map_left_iff.1 ?_)
    rw [List.forall₂_eq_eq_eq]
    exact hplans.symm
  refine ((List.forall₂_and_left _ _).2 ⟨outputs_of_compile hfresh hw h, hgroups⟩).imp fun p p' hp => ?_
  obtain ⟨hscope, houtputs, hoccurrences⟩ := GroupPlan.mk.inj hp.2
  exact ⟨hscope.symm, hoccurrences.symm, agreeEntries_of_relabelEntries_eq hp.1 houtputs.symm⟩

/-- What is sent does not depend on which scopes were minted. If the scopes of a tree that is compiled are renamed, no
two becoming one, then the tree is compiled to the same pipeline, and so is any other tree of its structure, whichever
serials its nodes have. So a query text becomes the same from any supply, or is rejected from any. -/
theorem compile_renamed (config : Config) (name name' : String) :
    (∀ (ρ : Scope → Scope) (s : Supply) (held : List Expr) (root : Expr) (c : Compilation), Function.Injective ρ →
      Build.Held s held → root ∈ held → (compile config name root s).result = .ok c →
        (∃ c', (compile config name' (root.rename ρ) s).result = .ok c' ∧ c.Renamed ρ c') ∧
        ∀ (u : Supply) (lo : Nat) (root' : Expr), Fresh lo u.nextNode root'.occurrences →
          (root.rename ρ).sameStructure root' = true →
            ∃ c', (compile config name' root' u).result = .ok c' ∧ c.Renamed ρ c') ∧
    ∀ text s u, Query.translate? config name s text = Query.translate? config name' u text := by
  constructor
  · intro ρ s held root c hρ hheld hroot h
    have hfresh := hheld.fresh hroot
    have hw := hheld.wellFormed hroot
    refine ⟨?_, fun u lo root' hfresh' hsame => exists_renamed name' hρ hfresh hw hfresh' hsame h⟩
    exact exists_renamed name' hρ hfresh hw hfresh.rename (Expr.sameStructure_self _) h
  · intro text s u
    exact Option.ext fun r => ⟨fun h => translate?_of_eq_some h name' u, fun h => translate?_of_eq_some h name s⟩

/-- The regions with more than one order. With another scope the tree becomes the same pipeline, and so does the tree
that is built next, which has the next scope. -/
theorem compile_renamed_repeatedCounts :
    (∃ s u held root root' c d c', Function.Injective (shift 1) ∧ Build.Held s held ∧ root ∈ held ∧
      (compile {} "first" root s).result = .ok c ∧ c.groups.map GroupPlan.scope = [⟨1⟩] ∧
      (compile {} "second" (root.rename (shift 1)) s).result = .ok d ∧ d.pipeline = c.pipeline ∧
      repeatedCounts.build.run s = .ok (root', u) ∧ Fresh 0 u.nextNode root'.occurrences ∧
      (root.rename (shift 1)).sameStructure root' = true ∧ (compile {} "second" root' u).result = .ok c' ∧
      c'.pipeline = c.pipeline ∧ c'.groups.map GroupPlan.scope = [⟨2⟩]) ∧
    ∃ r, Query.translate? {} "first" {} repeatedCounts.toJson.compact = some r ∧
      Query.translate? {} "second" ⟨40, 7⟩ repeatedCounts.toJson.compact = some r := by
  obtain ⟨hrenamed, htext⟩ := compile_renamed {} "first" "second"
  constructor
  · obtain ⟨root, s, c, hbuild, hcompile, hscopes⟩ := exists_compiled (x := repeatedCounts.build)
      (p := fun _ c => decide (c.groups.map GroupPlan.scope = [⟨1⟩])) (by decide +kernel)
    have hone : c.groups.map GroupPlan.scope = [⟨1⟩] := of_decide_eq_true hscopes
    obtain ⟨root', u, hbuild', -⟩ := Query.exists_twin_of_build hbuild s
    have hsame : (root.rename (shift 1)).sameStructure root' = true := by
      have htwice : ((repeatedCounts.build.run {}).toOption.bind fun built =>
          (repeatedCounts.build.run built.2).toOption.map fun again =>
            (built.1.rename (shift 1)).sameStructure again.1) = some true := by decide +kernel
      rw [hbuild] at htwice
      replace htwice : ((repeatedCounts.build.run s).toOption.map fun again =>
        (root.rename (shift 1)).sameStructure again.1) = some true := htwice
      rw [hbuild'] at htwice
      exact Option.some.inj htwice
    obtain ⟨held, hheld, hroot⟩ := Query.exists_held_of_build hbuild
    obtain ⟨held', hheld', hroot'⟩ := Query.exists_held_of_build hbuild'
    have hfresh := hheld'.fresh hroot'
    obtain ⟨⟨d, hd, hsent⟩, hsameStructure⟩ := hrenamed (shift 1) s held root c (shift_injective 1) hheld hroot hcompile
    obtain ⟨c', hcompile', hsent'⟩ := hsameStructure u 0 root' hfresh hsame
    exact ⟨s, u, held, root, root', c, d, c', shift_injective 1, hheld, hroot, hcompile, hone, hd, hsent.pipeline_eq,
      hbuild', hfresh, hsame, hcompile', hsent'.pipeline_eq, by rw [hsent'.scopes_eq, hone]; rfl⟩
  · have hsome : (Query.translate? {} "first" {} repeatedCounts.toJson.compact).isSome = true := by decide +kernel
    obtain ⟨r, hr⟩ := Option.isSome_iff_exists.1 hsome
    exact ⟨r, hr, (htext _ _ _).symm.trans hr⟩

end Aggregation
