import Aggregation.Proofs.Pipeline.Spine
import Aggregation.Proofs.Plan.Settled
import Mathlib.Algebra.BigOperators.Group.List.Basic

/-!
What planning makes of a pipeline. Apart from serials the planned tree is what the plans of the tree settle. There is a
plan for each group of the spine, in the order of the spine and with its outputs, and each accumulator that is tied to a
scope is counted by one plan.
-/

namespace Aggregation

open Aggregation.Expr (isGroupOf isTiedTo)
open GroupPlan (Assigned assigned_ofScope)

/-- A plan is that of a group: it has its scope and its outputs, and counts what the tree ties to the scope. -/
def GroupPlan.IsOf (root : Expr) (p : GroupPlan) (g : Expr) : Prop :=
  (∃ i input key, g = .group i input key p.scope p.outputs) ∧ p.occurrences = root.visible.countP (isTiedTo p.scope)

/-- The groups of a tree, the first one that documents pass first. -/
def Expr.groups (e : Expr) : List Expr := e.spine.filter fun d => d.kind = .group

/-- The groups of a pipeline are pipelines that it is made of. -/
theorem Expr.mem_chain_of_isGroupOf {e g : Expr} {scope : Scope} (hw : e.WellFormed) (hn : e.Native)
    (hpipeline : e.isPipeline = true) (hg : g ∈ e.occurrences) (hgroup : g.isGroupOf scope = true) : g ∈ e.chain := by
  rw [← filter_isPipeline_occurrences hw hn hpipeline]
  exact List.mem_filter.2 ⟨hg, isPipeline_of_isGroupOf hgroup⟩

theorem Expr.mem_groups {e g : Expr} {scope : Scope} (hg : g ∈ e.chain) (hgroup : g.isGroupOf scope = true) :
    g ∈ e.groups := by
  have hkind := Expr.kind_eq_group_of_isGroupOf hgroup
  have hsource : g.kind ≠ .source := by rw [hkind]; decide
  exact List.mem_filter.2 ⟨List.mem_reverse.2 (List.mem_filter.2 ⟨hg, decide_eq_true hsource⟩), decide_eq_true hkind⟩

namespace Binding

variable {stem : String} {root e e' input input' key key' : Expr} {lo n : Nat} {b b' : State} {s t : Supply}
  {scope : Scope} {old : List (String × Expr)} {i : NodeInfo} {groups : List GroupPlan}

theorem groups_of_chain (hchain : e.chain = e :: input.chain) (hs : e.kind ≠ .source) (hg : e.kind ≠ .group) :
    e.groups = input.groups := by
  have hdropped : decide (e.kind = .group) = false := decide_eq_false hg
  rw [Expr.groups, Expr.spine_append hchain hs, List.filter_append, List.filter_cons, hdropped]
  exact List.append_nil _

theorem groups_of_group (i : NodeInfo) (input key : Expr) (scope : Scope) (outputs : List (String × Expr)) :
    Expr.groups (.group i input key scope outputs) = input.groups ++ [.group i input key scope outputs] := by
  rw [Expr.groups, Expr.spine_append rfl (by simp [Expr.kind]), List.filter_append]
  rfl

/-- A pipeline that is no group has the groups of the pipeline that it reads from. -/
theorem groups_withChildren (hkind : e.kind ∈ [.filter, .project, .sort, .skip, .limit]) {rest : List Expr}
    (hlength : (input' :: rest).length = e.children.length) :
    (e.withChildren i (input' :: rest)).groups = input'.groups := by
  cases e with
  | filter | project =>
      obtain ⟨d, rfl⟩ := List.length_eq_one_iff.1 (Nat.succ.inj hlength)
      exact groups_of_chain rfl nofun nofun
  | sort | skip | limit =>
      cases List.eq_nil_of_length_eq_zero (Nat.succ.inj hlength)
      exact groups_of_chain rfl nofun nofun
  | constant | field | binary | unary | document | accumulator | correlated | source | group | extension =>
      simp [Expr.kind] at hkind

/-- A pipeline that is no group has the scopes of the pipeline that it reads from. -/
theorem scopes_of_children (hkind : e.kind ∈ [.filter, .project, .sort, .skip, .limit]) {rest : List Expr}
    (hchildren : e.children = input :: rest) : e.scopes = input.scopes := by
  cases e with
  | filter | project | sort | skip | limit =>
      cases hchildren
      rfl
  | constant | field | binary | unary | document | accumulator | correlated | source | group | extension =>
      simp [Expr.kind] at hkind

theorem groups_of_update (hkind : e.kind ∈ [.filter, .project, .sort, .skip, .limit])
    (hlt : ∀ c ∈ e.children, c.serial < n) {rest : List Expr}
    (hnew : List.Forall₂ (fun c c' => c' = c ∨ n ≤ c'.serial) e.children (input' :: rest))
    (h : (e.update (input' :: rest)).run s = .ok (e', t)) : e'.groups = input'.groups := by
  obtain ⟨hlength, hnode⟩ := Expr.update_run_iff.1 h
  split at hnode
  · next hover =>
    have hsame : input' :: rest = e.children :=
      eq_of_serials hnew hlt fun p hp => beq_iff_eq.1 (List.all_eq_true.1 hover p hp)
    have hgroups : (e.withChildren e.info (input' :: rest)).groups = input'.groups := groups_withChildren hkind hlength
    rwa [hsame, Expr.withChildren_children, ← hnode.1] at hgroups
  · rw [hnode.1]
    exact groups_withChildren hkind hlength

/-- Binding a group makes one over the children that have been bound, with the outputs of its plan, which it adds. -/
theorem exists_group_of_bindGroup {c : State} {u : Supply} {p : GroupPlan} {bindings : Bindings}
    (hroot : Fresh lo n root.occurrences)
    (hplan : GroupPlan.ofScope stem scope old ((CorrelationMap.collect root).accumulators scope) c.bindings
      = (p, bindings))
    (h : ((bindGroup stem (CorrelationMap.collect root).accumulators (.group i input key scope old) input key scope old
      input' key').run c).run u = .ok ((e', b'), t))
    (hinput : input'.serial = input.serial → input' = input) (hkey : key'.serial = key.serial → key' = key)
    (htype : i.type = .documents) :
    ∃ m, e' = .group ⟨m, i.type⟩ input' key' scope p.outputs ∧ b'.groups = c.groups ++ [p] := by
  obtain ⟨hkind, hsame⟩ := accumulators_sound hroot scope
  obtain ⟨naming, hassigned, hnaming⟩ : ∃ naming, Assigned stem old c.bindings _ naming ∧
      GroupPlan.ofScope stem scope old ((CorrelationMap.collect root).accumulators scope) c.bindings = _ :=
    assigned_ofScope scope c.bindings hkind hsame
  obtain ⟨new, houtputs, -⟩ := hassigned.outputs
  obtain ⟨rfl, rfl⟩ := Prod.mk.inj (hplan.symm.trans hnaming)
  obtain ⟨rfl, hnode⟩ := (bindGroup_run_eq_ok hnaming).1 h
  split at hnode
  · next hkept =>
    obtain ⟨rfl, rfl⟩ := hnode
    obtain ⟨⟨hserial, hserial'⟩, hlength⟩ :
        (input'.serial = input.serial ∧ key'.serial = key.serial) ∧ naming.outputs.length = old.length := by
      simpa only [isKept, Expr.isNode, Bool.and_eq_true, beq_iff_eq] using hkept
    have hnew : new = [] := by
      rw [houtputs, List.length_append] at hlength
      exact List.eq_nil_of_length_eq_zero (by omega)
    rw [hnew, List.append_nil] at houtputs
    refine ⟨i.serial, ?_, rfl⟩
    rw [hinput hserial, hkey hserial', houtputs]
  · obtain ⟨type, rfl, hchecked, -⟩ := (Build.group_makes input' key' scope naming.outputs u e' t).1 hnode
    have htype' : type = .documents := hchecked.2.2.2.2.2
    exact ⟨u.nextNode, by rw [htype, htype'], rfl⟩

/-- What binding a pipeline gives. Apart from serials the pipeline is the one that the plans of the whole tree settle,
and these plans are those of its groups, in the order of the spine. -/
structure Planned (stem : String) (root e e' : Expr) (b : State) : Prop where
  settled : e'.bare id = (e.settle fun scope => (GroupPlan.of stem root scope).outputs).bare id
  plans : b.groups = e.scopes.map (GroupPlan.of stem root)
  groups : List.Forall₂ (GroupPlan.IsOf root) b.groups e'.groups

/-- The groups of a planned pipeline have the outputs of the plans. -/
theorem Planned.outputs_eq (h : Planned stem root e e' b) {g : Expr} (hg : g ∈ e'.chain)
    (hgroup : isGroupOf scope g = true) : g.outputs = (GroupPlan.of stem root scope).outputs := by
  obtain ⟨p, hp, ⟨i, input, key, rfl⟩, -⟩ := exists_of_forall₂ h.groups (Expr.mem_groups hg hgroup)
  rw [h.plans] at hp
  obtain ⟨sc, -, rfl⟩ := List.mem_map.1 hp
  have hsc : sc = scope := of_decide_eq_true hgroup
  rw [← hsc]
  rfl

theorem planned_of_update (hkind : e.kind ∈ [.filter, .project, .sort, .skip, .limit])
    (hlt : ∀ c ∈ e.children, c.serial < n) {rest rest' : List Expr} (hchildren : e.children = input :: rest)
    (hnew : List.Forall₂ (fun c c' => c' = c ∨ n ≤ c'.serial) (input :: rest) (input' :: rest'))
    (hinput : Planned stem root input input' b)
    (hrest : rest'.map (Expr.bare id)
      = (rest.map (Expr.settle fun scope => (GroupPlan.of stem root scope).outputs)).map (Expr.bare id))
    (h : (e.update (input' :: rest')).run s = .ok (e', t)) : Planned stem root e e' b := by
  have hc : e.kind ≠ .correlated := fun hc => by simp [hc] at hkind
  have hg : e.kind ≠ .group := fun hg => by simp [hg] at hkind
  rw [← hchildren] at hnew
  have hbare : (input' :: rest').map (Expr.bare id)
      = (e.children.map (Expr.settle fun scope => (GroupPlan.of stem root scope).outputs)).map (Expr.bare id) := by
    rw [hchildren]
    exact congrArg₂ List.cons hinput.settled hrest
  refine ⟨settled_of_update hc hg hlt hnew hbare h, ?_, ?_⟩
  · rw [hinput.plans, scopes_of_children hkind hchildren]
  · rw [groups_of_update hkind hlt hnew h]
    exact hinput.groups

/-- Binding a group adds its plan. -/
theorem planned_of_bindGroup {c : State} {u : Supply} (hroot : Fresh lo n root.occurrences)
    (hone : root.occurrences.countP (isGroupOf scope) ≤ 1) (hmem : Expr.group i input key scope old ∈ root.occurrences)
    (h : ((bindGroup stem (CorrelationMap.collect root).accumulators (.group i input key scope old) input key scope old
      input' key').run c).run u = .ok ((e', b'), t))
    (hinput : input'.serial = input.serial → input' = input) (hkey : key'.serial = key.serial → key' = key)
    (htype : i.type = .documents) (hplanned : Planned stem root input input' c)
    (hsettled : key'.bare id = (key.settle fun scope => (GroupPlan.of stem root scope).outputs).bare id) :
    Planned stem root (.group i input key scope old) e' b' := by
  have hplan := plan_eq_of stem hroot hone hmem c.bindings
  obtain ⟨⟨p, bindings⟩, hofScope⟩ : ∃ r, GroupPlan.ofScope stem scope old
    ((CorrelationMap.collect root).accumulators scope) c.bindings = r := ⟨_, rfl⟩
  rw [hofScope] at hplan
  obtain rfl : p = GroupPlan.of stem root scope := hplan
  obtain ⟨m, rfl, hplans⟩ := exists_group_of_bindGroup hroot hofScope h hinput hkey htype
  constructor
  · rw [Expr.settle_group]
    show Expr.group _ (input'.bare id) (key'.bare id) _ _ = Expr.group _ (Expr.bare id _) (Expr.bare id _) _ _
    rw [hplanned.settled, hsettled]
    rfl
  · rw [hplans, hplanned.plans, scopes_group, List.map_append]
    rfl
  · have hcount : (GroupPlan.of stem root scope).occurrences = root.visible.countP (isTiedTo scope) := by
      show ((CorrelationMap.collect root).accumulators scope).length = _
      rw [CorrelationMap.accumulators_collect, List.countP_eq_length_filter]
    rw [hplans, groups_of_group]
    exact List.rel_append hplanned.groups (.cons ⟨⟨_, input', key', rfl⟩, hcount⟩ .nil)

variable (hroot : Fresh lo n root.occurrences) (hrootw : root.WellFormed) (hrootn : root.Native)

include hroot hrootw hrootn in
theorem pipeline_planned (hone : ∀ scope, root.occurrences.countP (isGroupOf scope) ≤ 1) (hw : e.WellFormed)
    (hnative : e.Native) (hpipeline : e.isPipeline = true) (hsub : ∀ d ∈ e.occurrences, d ∈ root.occurrences)
    (hn : n ≤ s.nextNode)
    (h : ((bind stem (CorrelationMap.collect root).accumulators e).run {}).run s = .ok ((e', b'), t)) :
    Planned stem root e e' b' := by
  induction e using Expr.induction_children generalizing s t e' b' with
  | step e ih =>
      have hbelow {c : Expr} (hmem : c ∈ e.children) : ∀ d ∈ c.occurrences, d ∈ root.occurrences := fun d hd =>
        hsub d (Expr.mem_occurrences_of_child hmem hd)
      have hpassed {input : Expr} (hmem : input ∈ e.children) (hp : input.isPipeline = true) {u : Supply}
          {input' : Expr} {c : State}
          (hrun : ((bind stem (CorrelationMap.collect root).accumulators input).run {}).run s = .ok ((input', c), u)) :
          Passed root n input input' s u c ∧ Planned stem root input input' c :=
        ⟨pipeline_sound hroot hrootw hrootn (hw.child hmem) (hnative.child hmem) hp (hbelow hmem) hn hrun,
          ih input hmem (hw.child hmem) (hnative.child hmem) hp (hbelow hmem) hn hrun⟩
      -- scalars are bound without a change of the state
      have hscalar {d d' : Expr} {input input' : Expr} {c c' : State} {u v : Supply} (hmem : d ∈ e.children)
          (hd : d.isPipeline = false) (hinput : Passed root n input input' s u c)
          (hplanned : Planned stem root input input' c)
          (hrun : ((bind stem (CorrelationMap.collect root).accumulators d).run c).run u = .ok ((d', c'), v)) :
          c' = c ∧ Turned root n input'.chain d d' u v ∧
            d'.bare id = (d.settle fun scope => (GroupPlan.of stem root scope).outputs).bare id := by
        have hle := Nat.le_trans hn hinput.supply_le
        obtain ⟨hc, hturned⟩ :=
          scalar_sound hroot hinput.ready (hw.child hmem) (hnative.child hmem) hd (hbelow hmem) hle hrun
        exact ⟨hc, hturned, scalar_settled hroot hinput.ready (fun _ _ hg hgroup => hplanned.outputs_eq hg hgroup)
          (hw.child hmem) (hnative.child hmem) hd (hbelow hmem) hle hrun⟩
      have hlt := serial_lt_of_child hroot hsub
      have hchecked := hw.checked
      cases e with
      | constant | field | binary | unary | document | accumulator | correlated | extension => cases hpipeline
      | source i collection =>
          rw [bind_kept _ _ (by simp [Expr.kind]) (by simp [Expr.kind])] at h
          obtain ⟨children, c, u, hchildren, hnode⟩ := run_bind_eq_ok.1 h
          obtain ⟨rfl, rfl, rfl⟩ := run_pure_eq_ok.1 hchildren
          obtain ⟨hupdate, rfl⟩ := run_build_eq_ok.1 hnode
          refine ⟨settled_of_update (by simp [Expr.kind]) (by simp [Expr.kind]) hlt .nil rfl hupdate, rfl, ?_⟩
          obtain ⟨-, rfl, -⟩ := Expr.update_run_iff.1 hupdate
          exact .nil
      | filter i input d | project i input d =>
          obtain ⟨hp, hd, -⟩ := hchecked
          obtain ⟨input', d', c, u, v, hfirst, hsecond, hupdate⟩ :=
            (run_bind_two (by simp [Expr.kind]) (by simp [Expr.kind]) rfl).1 h
          obtain ⟨hinput, hplanned⟩ := hpassed List.mem_cons_self hp hfirst
          obtain ⟨rfl, hturned, hsettled⟩ :=
            hscalar (List.mem_cons_of_mem _ List.mem_cons_self) hd hinput hplanned hsecond
          exact planned_of_update (by simp [Expr.kind]) hlt rfl
            (.cons hinput.eq_or_new (.cons hturned.eq_or_new .nil)) hplanned (congrArg (fun x => [x]) hsettled) hupdate
      | group i input key scope outputs =>
          obtain ⟨hp, hd, -, -, -, htype⟩ := hchecked
          rw [bind_group] at h
          obtain ⟨input', c, u, hfirst, hrest⟩ := run_bind_eq_ok.1 h
          obtain ⟨key', d, v, hsecond, hgroup⟩ := run_bind_eq_ok.1 hrest
          have hmem : key ∈ Expr.children (.group i input key scope outputs) :=
            List.mem_cons_of_mem _ List.mem_cons_self
          obtain ⟨hinput, hplanned⟩ := hpassed List.mem_cons_self hp hfirst
          obtain ⟨rfl, hkey, hsettled⟩ := hscalar hmem hd hinput hplanned hsecond
          exact planned_of_bindGroup hroot (hone scope) (hsub _ (Expr.mem_occurrences_self _)) hgroup
            (fun hserial => hinput.eq_of_serial_eq (hlt input List.mem_cons_self) hserial)
            (fun hserial => hkey.eq_of_serial_eq (hlt key hmem) hserial) htype hplanned hsettled
      | sort i input | skip i input | limit i input =>
          obtain ⟨input', u, hfirst, hupdate⟩ := (run_bind_one (by simp [Expr.kind]) (by simp [Expr.kind]) rfl).1 h
          obtain ⟨hinput, hplanned⟩ := hpassed List.mem_cons_self hchecked.1 hfirst
          exact planned_of_update (by simp [Expr.kind]) hlt rfl (.cons hinput.eq_or_new .nil) hplanned rfl hupdate

end Binding

section Plans

variable {root : Expr} {planned : PlannedTree} {stem : String} {lo : Nat} {s t : Supply}

theorem planned_of_plan (hfresh : Fresh lo s.nextNode root.occurrences) (hw : root.WellFormed) (hnative : root.Native)
    (hpipeline : root.isPipeline = true) (h : (plan stem root).run s = .ok (planned, t)) :
    ∃ b, Binding.Planned stem root root planned.root b ∧ planned.groups = b.groups := by
  obtain ⟨-, -, b, hbind, hplans⟩ := plan_eq_ok.1 h
  exact ⟨b, Binding.pipeline_planned hfresh hw hnative (countP_isGroupOf_le_one hw hnative h) hw hnative hpipeline
    (fun _ hd => hd) (Nat.le_refl _) hbind, hplans⟩

/-- A plan is what the tree settles. -/
theorem settled_of_plan (hfresh : Fresh lo s.nextNode root.occurrences) (hw : root.WellFormed) (hnative : root.Native)
    (hpipeline : root.isPipeline = true) (h : (plan stem root).run s = .ok (planned, t)) :
    planned.root.bare id = (root.settle fun scope => (GroupPlan.of stem root scope).outputs).bare id ∧
      planned.groups = root.scopes.map (GroupPlan.of stem root) := by
  obtain ⟨b, hplanned, hplans⟩ := planned_of_plan hfresh hw hnative hpipeline h
  exact ⟨hplanned.settled, hplans.trans hplanned.plans⟩

/-- The outputs of a plan have good names. -/
theorem namesOutputs_of_plan (hfresh : Fresh lo s.nextNode root.occurrences) (hw : root.WellFormed)
    (hnative : root.Native) (hpipeline : root.isPipeline = true) (h : (plan stem root).run s = .ok (planned, t)) :
    Binding.NamesOutputs stem root := by
  obtain ⟨b, hplanned, -⟩ := planned_of_plan hfresh hw hnative hpipeline h
  obtain ⟨hreplaced, hwf⟩ := turned_of_plan hfresh hw hnative h
  have hone := countP_isGroupOf_le_one hw hnative h
  intro i input key scope old hmem
  -- the group is on the chain of the tree, so the planned tree has a group of its scope too
  have hhas : planned.root.chain.any (isGroupOf scope) = true := by
    rw [hreplaced.any_chain, List.any_eq_true]
    exact ⟨_, Expr.mem_chain_of_isGroupOf hw hnative hpipeline hmem (decide_eq_true rfl), decide_eq_true rfl⟩
  obtain ⟨g, hg, hgroup⟩ := List.any_eq_true.1 hhas
  rw [Binding.plan_eq_of stem hfresh (hone scope) hmem, ← hplanned.outputs_eq hg hgroup]
  have hchecked := hwf g (Expr.mem_occurrences_of_mem_chain hg)
  obtain ⟨j, input', key', sc, outputs, rfl⟩ :=
    Expr.exists_of_kind_eq_group (Expr.kind_eq_group_of_isGroupOf hgroup)
  intro f hf
  obtain ⟨hname, hid, -⟩ := hchecked.2.2.2.1 f hf
  exact ⟨hname, hid⟩

end Plans

section Occurrences

variable {root : Expr} {planned : PlannedTree} {stem : String} {lo : Nat} {s t : Supply}

/-- No accumulator that is tied to a scope is inside another one. -/
theorem Expr.countP_visible_correlated {e : Expr} (hw : e.WellFormed) :
    e.visible.countP (fun d => d.kind = .correlated) = e.occurrences.countP fun d => d.kind = .correlated := by
  induction e using induction_children with
  | step e ih =>
      rw [visible_eq, occurrences_eq]
      by_cases hk : e.kind = .correlated
      · have hzero : (e.children.flatMap occurrences).countP (fun d => d.kind = .correlated) = 0 := by
          refine List.countP_eq_zero.2 fun d hd hcorrelated => ?_
          obtain ⟨c, hc, hd⟩ := List.mem_flatMap.1 hd
          have hkind : d.kind = .correlated := of_decide_eq_true hcorrelated
          rcases eq_of_mem_correlated hw hk hc hd with rfl | hacc
          · rw [kind_child_correlated hw.checked hk hc] at hkind
            cases hkind
          · exact (isAccumulator_eq_false_iff.1 hacc).2 hkind
        rw [if_pos hk, List.countP_cons, List.countP_cons, hzero, List.countP_nil]
      · rw [if_neg hk, List.countP_cons, List.countP_cons, List.countP_flatMap, List.countP_flatMap]
        congr 2
        exact List.map_congr_left fun c hc => ih c hc (hw.child hc)

/-- An accumulator that is tied to a scope is counted by the plan of the scope, and by no other. -/
theorem countP_plans {plans : List GroupPlan} (hnodup : (plans.map GroupPlan.scope).Nodup) {e : Expr}
    (hplanned : ∀ i scope inner, e = .correlated i scope inner → scope ∈ plans.map GroupPlan.scope) :
    plans.countP (fun p => isTiedTo p.scope e) = if decide (e.kind = .correlated) = true then 1 else 0 := by
  cases e with
  | correlated i scope inner =>
      have hone := List.count_eq_one_of_mem hnodup (hplanned i scope inner rfl)
      rw [List.count_eq_countP, List.countP_map] at hone
      refine Eq.trans ?_ hone
      refine List.countP_congr fun p _ => ?_
      show decide (scope = p.scope) = true ↔ (p.scope == scope) = true
      rw [decide_eq_true_iff, beq_iff_eq]
      exact eq_comm
  | constant | field | binary | unary | document | accumulator | source | filter | group | project | sort | skip
  | limit | extension => exact List.countP_eq_zero.2 fun _ _ => nofun

/-- Accumulators are counted once, if each scope that they are tied to has one plan. -/
theorem sum_countP_isTiedTo {plans : List GroupPlan} (hnodup : (plans.map GroupPlan.scope).Nodup) {es : List Expr}
    (hplanned : ∀ i scope inner, Expr.correlated i scope inner ∈ es → scope ∈ plans.map GroupPlan.scope) :
    (plans.map fun p => es.countP (isTiedTo p.scope)).sum = es.countP fun d => d.kind = .correlated := by
  have hsum (q : GroupPlan → Bool) (ps : List GroupPlan) :
      (ps.map fun p => if q p = true then 1 else 0).sum = ps.countP q := by
    induction ps with
    | nil => rfl
    | cons p rest ih =>
        rw [List.map_cons, List.sum_cons, List.countP_cons, Nat.add_comm, ih]
  induction es with
  | nil => simp
  | cons e rest ih =>
      have hrest := ih fun i scope inner hmem => hplanned i scope inner (List.mem_cons_of_mem _ hmem)
      have hself := countP_plans hnodup (e := e) fun i scope inner he =>
        hplanned i scope inner (he ▸ List.mem_cons_self)
      simp only [List.countP_cons]
      rw [List.sum_map_add, hrest, hsum, hself]

/-- A plan has the groups of the spine with their outputs, and counts every accumulator that is tied to a scope. -/
theorem groups_of_plan (hfresh : Fresh lo s.nextNode root.occurrences) (hw : root.WellFormed) (hnative : root.Native)
    (hpipeline : root.isPipeline = true) (h : (plan stem root).run s = .ok (planned, t)) :
    List.Forall₂ (GroupPlan.IsOf root) planned.groups planned.root.groups ∧
      (planned.groups.map GroupPlan.occurrences).sum = root.occurrences.countP fun d => d.kind = .correlated := by
  obtain ⟨b, hplanned, hplans⟩ := planned_of_plan hfresh hw hnative hpipeline h
  have hgroups : List.Forall₂ (GroupPlan.IsOf root) planned.groups planned.root.groups := hplans ▸ hplanned.groups
  obtain ⟨hreplaced, -⟩ := turned_of_plan hfresh hw hnative h
  -- an accumulator stands where a group of its scope comes before, which is a group of the spine
  have hplanned : ∀ i scope inner, Expr.correlated i scope inner ∈ root.visible →
      scope ∈ planned.groups.map GroupPlan.scope := by
    intro i scope inner hmem
    have hhas : planned.root.chain.any (isGroupOf scope) = true := by
      rw [hreplaced.any_chain, List.any_eq_true]
      obtain ⟨g, hg, hgroup⟩ :=
        (hreplaced.anchored hw hnative).exists_group (Expr.mem_occurrences_of_visible root _ hmem)
      exact ⟨g, Expr.mem_chain_of_isGroupOf hw hnative hpipeline hg hgroup, hgroup⟩
    obtain ⟨g, hg, hgroup⟩ := List.any_eq_true.1 hhas
    obtain ⟨p, hp, ⟨j, input, key, rfl⟩, -⟩ := Binding.exists_of_forall₂ hgroups (Expr.mem_groups hg hgroup)
    exact List.mem_map.2 ⟨p, hp, of_decide_eq_true hgroup⟩
  have hcounts : planned.groups.map GroupPlan.occurrences
      = planned.groups.map fun p => root.visible.countP (isTiedTo p.scope) :=
    List.map_congr_left fun p hp => by
      obtain ⟨g, -, -, hcount⟩ := Binding.exists_of_forall₂ hgroups.flip hp
      exact hcount
  refine ⟨hgroups, ?_⟩
  rw [hcounts, sum_countP_isTiedTo (bound_of_plan hfresh h).2 hplanned, Expr.countP_visible_correlated hw]

end Occurrences

end Aggregation
