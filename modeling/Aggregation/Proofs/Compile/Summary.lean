import Aggregation.Proofs.Compile.Visibility
import Aggregation.Proofs.Plan.Groups

/-!
The stages that are sent against the tree, and against what is told of its groups. Stages come from the tree that
planning has made and the summary from the plans, so they have to agree: stage by stage with the spine of the tree, and
group by group with the plans.
-/

namespace Aggregation

open Lowering (lowerAccumulator)

variable {config : Config} {id : String} {root : Expr} {s : Supply} {c : Compilation} {held : List Expr}

/-- A compilation succeeds as it has planned and emitted. -/
theorem compile_result_eq_ok : (compile config id root s).result = .ok c ↔
    root.Native ∧ ∃ planned t, (plan config.stem root).run s = .ok (planned, t) ∧
      emit config.eliminates planned.root = .ok ⟨c.pipeline, c.eliminated⟩ ∧ c.groups = planned.groups := by
  rw [← isOk_checkCapabilities]
  show (Compilation.steps config root s).result = _ ↔ _
  unfold Compilation.steps
  cases checkCapabilities root with
  | error e => exact iff_of_false nofun fun h => (nomatch h.1)
  | ok u =>
      cases (plan config.stem root).run s with
      | error e => exact iff_of_false nofun fun ⟨_, _, _, h, _⟩ => (nomatch h)
      | ok p =>
          obtain ⟨planned, t⟩ := p
          cases hemit : emit config.eliminates planned.root with
          | error e =>
              simp only [hemit]
              refine iff_of_false nofun fun ⟨_, _, _, h, h', _⟩ => ?_
              cases h
              rw [hemit] at h'
              cases h'
          | ok emission =>
              simp only [hemit]
              constructor
              · intro h
                cases h
                exact ⟨rfl, planned, t, rfl, hemit, rfl⟩
              · rintro ⟨-, _, _, h, h', hgroups⟩
                cases h
                cases hemit.symm.trans h'
                rw [← hgroups]

theorem emit_eq_ok {eliminates : Bool} {e : Expr} {emission : Emission} : emit eliminates e = .ok emission ↔
    ∃ collection stages, Lowering.lower e = .ok (collection, stages) ∧
      emission = if eliminates then ⟨⟨collection, (Pipeline.eliminate stages).1⟩, (Pipeline.eliminate stages).2⟩
        else ⟨⟨collection, stages⟩, []⟩ := by
  unfold emit
  rw [bind_eq_ok]
  constructor
  · rintro ⟨⟨collection, stages⟩, hlower, h⟩
    refine ⟨collection, stages, hlower, ?_⟩
    cases eliminates <;> exact (Except.ok.inj h).symm
  · rintro ⟨collection, stages, hlower, rfl⟩
    refine ⟨(collection, stages), hlower, ?_⟩
    cases eliminates <;> rfl

theorem isPipeline_of_emit {lo : Nat} {eliminates : Bool} {planned : PlannedTree} {emission : Emission} {t : Supply}
    {stem : String} (hfresh : Fresh lo s.nextNode root.occurrences) (hw : root.WellFormed) (hnative : root.Native)
    (hplan : (plan stem root).run s = .ok (planned, t)) (hemit : emit eliminates planned.root = .ok emission) :
    root.isPipeline = true := by
  obtain ⟨hreplaced, -⟩ := turned_of_plan hfresh hw hnative hplan
  obtain ⟨collection, stages, hlower, -⟩ := emit_eq_ok.1 hemit
  rw [← hreplaced.isPipeline_eq]
  exact Lowering.isPipeline_of_isOk_lower (by rw [hlower]; rfl)

/-- A stage that groups documents has the outputs of a plan, each under its name and in the order of the plan. -/
def GroupPlan.Describes (p : GroupPlan) (stage : Stage) : Prop :=
  ∃ spec, stage.body = .document spec ∧ spec.keys = "_id" :: p.names ∧
    ∀ f ∈ p.outputs, ∃ v, lowerAccumulator f.2 = .ok v ∧ spec.get? f.1 = some v

/-- The stage of a group has its outputs under their names. -/
theorem describes_of_isOf {p : GroupPlan} {g : Expr} {stage : Stage} (hp : p.IsOf root g) (hchecked : g.Checked)
    (h : Lowering.ownStage g = .ok stage) : p.Describes stage := by
  obtain ⟨⟨i, input, key, rfl⟩, -⟩ := hp
  obtain ⟨k, -, h⟩ := bind_eq_ok.1 h
  obtain ⟨values, hvalues, h⟩ := bind_eq_ok.1 h
  cases h
  have hbecome := Lowering.fieldsBecome_of_lowerOutputs hvalues
  have hdistinct : ("_id" :: values.map Prod.fst).Nodup := by
    rw [hbecome.map_fst]
    exact hchecked.nodup_names
  have hspec : Record.ofList (("_id", k) :: values) = ⟨("_id", k) :: values⟩ := Record.ofList_eq_mk hdistinct
  refine ⟨_, rfl, ?_, fun f hf => ?_⟩
  · rw [hspec]
    exact congrArg ("_id" :: ·) hbecome.map_fst
  · obtain ⟨v, hmem, hv⟩ := hbecome.exists_mem hf
    rw [hspec]
    exact ⟨v, hv, Record.get?_of_mem hdistinct (List.mem_cons_of_mem _ hmem)⟩

theorem stageOperator_eq_group_iff {kind : NodeKind} : kind.stageOperator = "$group" ↔ kind = .group := by
  cases kind <;> decide

theorem forall₂_comp {α β γ : Type} {R : α → β → Prop} {S : β → γ → Prop} {T : α → γ → Prop} {xs : List α} {ys : List β}
    {zs : List γ} (hR : List.Forall₂ R xs ys) (hS : List.Forall₂ S ys zs)
    (h : ∀ x, ∀ y ∈ ys, ∀ z, R x y → S y z → T x z) : List.Forall₂ T xs zs := by
  induction hR generalizing zs with
  | nil =>
      cases hS
      exact .nil
  | cons hxy _ ih =>
      obtain ⟨z, rest, hyz, hrest, rfl⟩ := List.forall₂_cons_left_iff.1 hS
      exact .cons (h _ _ List.mem_cons_self z hxy hyz) (ih hrest fun x y hy => h x y (List.mem_cons_of_mem _ hy))

/-- The stages that group documents are those of the plans. -/
theorem describes_of_lower {planned : PlannedTree} {collection : String} {stages : List Stage}
    (hplans : List.Forall₂ (GroupPlan.IsOf root) planned.groups planned.root.groups) (hw : planned.root.WellFormed)
    (hlower : Lowering.lower planned.root = .ok (collection, stages)) :
    List.Forall₂ GroupPlan.Describes planned.groups (stages.filter fun stage => stage.operator = "$group") := by
  have hstages : List.Forall₂ (fun g stage => Lowering.ownStage g = .ok stage) planned.root.groups
      (stages.filter fun stage => stage.operator = "$group") := by
    refine List.rel_filter (fun d stage h => ?_) (Lowering.ownStages_of_lower hlower)
    show decide (d.kind = .group) = true ↔ decide (stage.operator = "$group") = true
    rw [decide_eq_true_iff, decide_eq_true_iff, Lowering.operator_ownStage h, stageOperator_eq_group_iff]
  refine forall₂_comp hplans hstages fun p g hg stage hp hstage => describes_of_isOf hp (hw g ?_) hstage
  have hspine : g ∈ planned.root.spine := List.mem_of_mem_filter hg
  exact Expr.mem_occurrences_of_mem_chain (List.mem_of_mem_filter (List.mem_reverse.1 hspine))

/-- What is told of a compilation agrees with what is sent. The collection is that of the one source of the tree. Each
other pipeline of the spine has one stage of its kind, and if stages are left out, each that is gone is told of. The
stages that group documents have the outputs of the plans, and the plans count every accumulator that is tied to a
scope. -/
theorem summary_agrees (hheld : Build.Held s held) (hroot : root ∈ held)
    (h : (compile config id root s).result = .ok c) :
    root.occurrences.filterMap Expr.collection? = [c.pipeline.collection] ∧
      (config.eliminates = false →
        c.pipeline.operators = root.spine.map (fun d => d.kind.stageOperator) ∧ c.eliminated = []) ∧
      (config.eliminates = true → c.pipeline.stages.length + c.eliminated.length = root.spine.length) ∧
      List.Forall₂ GroupPlan.Describes c.groups (c.pipeline.stages.filter fun stage => stage.operator = "$group") ∧
      (c.groups.map GroupPlan.occurrences).sum = root.occurrences.countP fun d => d.kind = .correlated := by
  obtain ⟨hnative, planned, t, hplan, hemit, hgroups⟩ := compile_result_eq_ok.1 h
  obtain ⟨collection, stages, hlower, hemission⟩ := emit_eq_ok.1 hemit
  have hw := hheld.wellFormed hroot
  have hfresh := hheld.fresh hroot
  obtain ⟨hreplaced, hwf⟩ := turned_of_plan hfresh hw hnative hplan
  have hpipeline := isPipeline_of_emit hfresh hw hnative hplan hemit
  obtain ⟨hplans, hsum⟩ := groups_of_plan hfresh hw hnative hpipeline hplan
  have hcollection : root.occurrences.filterMap Expr.collection? = [collection] := by
    rw [Expr.filterMap_collection?_occurrences hw hnative hpipeline, ← hreplaced.filterMap_collection?_chain]
    exact Lowering.collections_of_lower hlower
  have hkinds : planned.root.spine.map (fun d => d.kind.stageOperator)
      = root.spine.map fun d => d.kind.stageOperator := by
    have hmap (d : Expr) : d.spine.map (fun x => x.kind.stageOperator)
        = (d.spine.map Expr.kind).map NodeKind.stageOperator := by
      rw [List.map_map]
      rfl
    rw [hmap, hmap, hreplaced.map_kind_spine]
  have hoperators : stages.map Stage.operator = root.spine.map fun d => d.kind.stageOperator :=
    (Lowering.operators_of_lower hlower).trans hkinds
  have hlength : stages.length = root.spine.length := by
    simpa only [List.length_map] using congrArg List.length hoperators
  have hdescribes := describes_of_lower hplans hwf hlower
  rw [hgroups]
  cases heliminates : config.eliminates with
  | false =>
      rw [heliminates] at hemission
      obtain ⟨hp, he⟩ := Emission.mk.inj hemission
      rw [hp, he]
      exact ⟨hcollection, fun _ => ⟨hoperators, rfl⟩, nofun, hdescribes, hsum⟩
  | true =>
      rw [heliminates] at hemission
      obtain ⟨hp, he⟩ := Emission.mk.inj hemission
      rw [hp, he]
      refine ⟨hcollection, nofun, fun _ => (Pipeline.length_eliminate stages).trans hlength, ?_, hsum⟩
      rw [Pipeline.tidies_eliminate.filter_eq fun stage hstage => ?_]
      · exact hdescribes
      · cases stage with
        | filter | group | project | sort => rfl
        | keep | skip | limit => exact absurd (of_decide_eq_true hstage) (by simp [Stage.operator])

/-- What is read off stages that are never left out agrees with what is read off the pipelines that they come from. -/
theorem forall₂_bodies {α β : Type} {f : Expr → Option α} {g : Stage → Option β} {P : α → β → Prop}
    (hheld : Build.Held s held) (hroot : root ∈ held) (h : (compile config id root s).result = .ok c)
    (hg : ∀ stage, stage.isSolid = false → g stage = none)
    (hstage : ∀ {up d d' stage}, Replaced root up d d' → d'.WellFormed → Lowering.ownStage d' = .ok stage →
      Option.Rel P (f d) (g stage)) :
    List.Forall₂ P (root.spine.filterMap f) (c.pipeline.stages.filterMap g) := by
  obtain ⟨planned, t, collection, stages, tidy, hplan, hlower, htidy, hstages⟩ := exists_tidies h
  have hnative : root.Native := (exists_compile_iff_steps.1 ⟨c, h⟩).1
  obtain ⟨hreplaced, hw⟩ := turned_of_plan (hheld.fresh hroot) (hheld.wellFormed hroot) hnative hplan
  rw [hstages, htidy.filterMap_eq hg]
  refine List.rel_filterMap (R := fun d stage => Option.Rel P (f d) (g stage)) (fun d stage hd => hd) ?_
  refine forall₂_comp hreplaced.forall₂_spine (Lowering.ownStages_of_lower hlower) fun d d' hd' stage hd hown => ?_
  obtain ⟨up, hd⟩ := hd
  have hchain : d' ∈ planned.root.chain := List.mem_of_mem_filter (List.mem_reverse.1 hd')
  exact hstage hd (fun b hb => hw b (Expr.mem_occurrences_trans (Expr.mem_occurrences_of_mem_chain hchain) hb)) hown

/-- Three of the regions with more than one order, by way of five of them. -/
def threeRegions : Query := ⟨"orders", repeatedCounts.steps ++ [.limit 5, .limit 3, .skip 0]⟩

/-- Six pipelines become four stages, and two of the three accumulators share an output. -/
theorem summary_agrees_threeRegions : ∃ s held root c, Build.Held s held ∧ root ∈ held ∧
    (compile {} "" root s).result = .ok c ∧ c.groups.map GroupPlan.names = [["__agg0", "__agg1"]] ∧
    c.pipeline.operators = ["$group", "$match", "$project", "$limit"] ∧
    c.eliminated = [.limitMerged, .skippedNothing] ∧ root.spine.length = 6 ∧
    List.Forall₂ GroupPlan.Describes c.groups (c.pipeline.stages.filter fun stage => stage.operator = "$group") ∧
    root.occurrences.countP (fun d => d.kind = .correlated) = 3 := by
  obtain ⟨root, s, c, hbuild, hcompile, hcheck⟩ := exists_compiled (x := threeRegions.build)
    (p := fun _ c => decide (c.groups.map GroupPlan.names = [["__agg0", "__agg1"]] ∧
      c.pipeline.operators = ["$group", "$match", "$project", "$limit"] ∧
      c.eliminated = [.limitMerged, .skippedNothing] ∧ (c.groups.map GroupPlan.occurrences).sum = 3))
    (by decide +kernel)
  obtain ⟨held, hheld, hroot⟩ := Query.exists_held_of_build hbuild
  obtain ⟨hnames, hoperators, heliminated, hthree⟩ := of_decide_eq_true hcheck
  obtain ⟨-, -, hlength, hdescribes, hsum⟩ := summary_agrees hheld hroot hcompile
  have hstages : c.pipeline.stages.length = 4 := by
    rw [← List.length_map (f := Stage.operator)]
    exact congrArg List.length hoperators
  have hsix : c.pipeline.stages.length + c.eliminated.length = root.spine.length := hlength rfl
  rw [hstages, heliminated] at hsix
  exact ⟨s, held, root, c, hheld, hroot, hcompile, hnames, hoperators, heliminated, hsix.symm, hdescribes,
    hsum.symm.trans hthree⟩

end Aggregation
