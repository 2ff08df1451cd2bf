import Aggregation.Proofs.Plan.Soundness

/-!
When planning succeeds. A tree without nodes of a host can be planned exactly if no scope has two groups and every
accumulator that is tied to a scope sits in a predicate or a projection after the group of the scope.
-/

namespace Aggregation

open Aggregation.Expr (Anchored AnchoredAt isGroupOf isTiedTo)
open GroupPlan (Assigned assigned_ofScope)

variable {stem : String} {root e e' : Expr} {up : List Expr} {lo n : Nat} {s t : Supply} {scope : Scope}

/-- Where an accumulator has been replaced, the new node reads from a group that was on the path. -/
theorem Replaced.anchoredAt (hw : e.WellFormed) (hn : e.Native) (h : Replaced root up e e') {path : List Nat}
    {i : NodeInfo} {inner : Expr} (hat : e.at? path = some (.correlated i scope inner)) :
    up.any (isGroupOf scope) = true ∨ e.AnchoredAt path scope := by
  induction path generalizing e e' up with
  | nil =>
      cases hat
      cases h with
      | kept hkind => exact absurd (by simp [Expr.kind]) hkind
      | correlated _ _ hg hscope => exact .inl (List.any_eq_true.2 ⟨_, hg, hscope⟩)
  | cons k path ih =>
      obtain ⟨c, hc, hat⟩ := Option.bind_eq_some_iff.1 hat
      have hmem : c ∈ e.children := List.mem_of_getElem? hc
      have hbelow := Expr.mem_occurrences_of_at? hat
      have hchild {c' : Expr} {up' : List Expr} (hr : Replaced root up' c c') :
          up'.any (isGroupOf scope) = true ∨ e.AnchoredAt (k :: path) scope :=
        (ih (hw.child hmem) (hn.child hmem) hr hat).imp_right (.cons hc)
      have hrow {c' input input' : Expr} (hk : k = 1) (hinput : Replaced root [] input input')
          (hchain : e.chain = e :: input.chain) (hkind : e.kind = .filter ∨ e.kind = .project)
          (hr : Replaced root input'.chain c c') : e.AnchoredAt (k :: path) scope := by
        refine (hchild hr).elim (fun hgroup => ⟨[], path, e, by rw [hk]; rfl, rfl, hkind, ?_⟩) id
        rw [hinput.any_chain] at hgroup
        rw [hchain, List.any_cons, hgroup, Bool.or_true]
      cases h with
      | correlated =>
          cases List.mem_singleton.1 hmem
          exact absurd (.inl rfl) (Replaced.not_mem_accumulator (hw.child hmem) (hn.child hmem) hw.checked.1 hbelow)
      | filter i n hinput hscalar | project i n hinput hscalar =>
          rcases k with _ | _ | k
          · cases hc
            exact .inr ((hchild hinput).resolve_left Bool.false_ne_true)
          · cases hc
            exact .inr (hrow rfl hinput rfl (by simp [Expr.kind]) hscalar)
          · cases hc
      | group i n hinput hkey hnew =>
          rcases k with _ | _ | k
          · cases hc
            exact .inr ((hchild hinput).resolve_left Bool.false_ne_true)
          · cases hc
            have hnone := Expr.containsAccumulator_eq_false_iff.1 hw.checked.2.2.1 _ hbelow
            exact absurd rfl (Expr.isAccumulator_eq_false_iff.1 hnone).2
          · obtain ⟨f, hf, rfl⟩ := List.mem_map.1 (List.mem_of_getElem? (l := List.map Prod.snd _) hc)
            obtain ⟨hwf, hnf, hkind⟩ := outputs_sound hw hn f hf
            exact absurd (.inl rfl) (not_mem_accumulator hwf hnf hkind hbelow)
      | @kept _ _ hkind n children hlength hall =>
          obtain ⟨c', -, hzip⟩ := exists_getElem?_zip hlength hc
          exact hchild (hall hzip)

theorem Replaced.anchored (hw : e.WellFormed) (hn : e.Native) (h : Replaced root [] e e') : e.Anchored :=
  fun _ _ _ _ hat => (h.anchoredAt hw hn hat).resolve_left nofun

namespace Binding

open GroupPlan (Adds)

variable {b c : State} {u v : Supply} {d input input' key key' : Expr} {old : List (String × Expr)}

/-- The names that planning numbers are good ones for outputs. -/
def NumbersOutputs (stem : String) : Prop :=
  ∀ k, Build.isOutputName (GroupPlan.numbered stem k) = true ∧ GroupPlan.numbered stem k ≠ "_id"

/-- The outputs that planning gives to the groups of a tree have names that outputs may have. -/
def NamesOutputs (stem : String) (root : Expr) : Prop :=
  ∀ i input key scope old, Expr.group i input key scope old ∈ root.occurrences →
    ∀ f ∈ (GroupPlan.ofScope stem scope old ((CorrelationMap.collect root).accumulators scope) []).1.outputs,
      Build.isOutputName f.1 = true ∧ f.1 ≠ "_id"

theorem NumbersOutputs.namesOutputs (h : NumbersOutputs stem) (hroot : Fresh lo n root.occurrences)
    (hw : root.WellFormed) : NamesOutputs stem root := by
  intro i input key scope old hmem
  obtain ⟨hkind, hsame⟩ := accumulators_sound hroot scope
  obtain ⟨naming, ⟨⟨new, houtputs, hadds⟩, -⟩, hplan⟩ : ∃ naming, Assigned stem old [] _ naming ∧
      GroupPlan.ofScope stem scope old ((CorrelationMap.collect root).accumulators scope) [] = _ :=
    assigned_ofScope scope [] hkind hsame
  rw [hplan]
  show ∀ f ∈ naming.outputs, _
  rw [houtputs]
  refine List.forall_mem_append.2 ⟨fun f hf => ?_, fun f hf => ?_⟩
  · obtain ⟨hname, hid, -⟩ := (hw _ hmem).2.2.2.1 f hf
    exact ⟨hname, hid⟩
  · obtain ⟨k, hname⟩ := hadds.numbered f hf
    exact hname ▸ h k

/-- The outputs of the groups that have been passed can be read as fields. -/
theorem Passed.isPath (h : Passed root n e e' s t b) : ∀ g ∈ e'.chain, ∀ f ∈ g.outputs, Build.isPath f.1 = true := by
  intro g hg f hf
  have hchecked := h.wellFormed g (Expr.mem_occurrences_of_mem_chain hg)
  cases g with
  | group => exact isPath_of_isOutputName (hchecked.2.2.2.1 f hf).1
  | constant | field | binary | unary | document | accumulator | correlated | source | filter | project | sort | skip
  | limit | extension => cases hf

variable (hroot : Fresh lo n root.occurrences) (hrootw : root.WellFormed) (hrootn : root.Native)

include hroot in
/-- A scalar that a pipeline reads from the documents of another one is bound, if the groups that it reads from have
been passed. -/
theorem exists_run_scalar {live : Scope → List Expr} (hpassed : Passed root n input input' s u b)
    (hw : d.WellFormed) (hnative : d.Native) (hscalar : d.isPipeline = false)
    (hsub : ∀ c ∈ d.occurrences, c ∈ root.occurrences)
    (hbefore : ∀ i scope inner, Expr.correlated i scope inner ∈ d.occurrences →
      input.chain.any (isGroupOf scope) = true)
    (hn : n ≤ s.nextNode) :
    ∃ d' v, ((bind stem live d).run b).run u = .ok ((d', b), v) ∧ Turned root n input'.chain d d' u v := by
  have hbound : ∀ i scope inner, Expr.correlated i scope inner ∈ d.occurrences → scope ∈ b.bound := by
    intro i scope inner hmem
    rw [hpassed.ready.bound, hpassed.replaced.any_chain]
    exact hbefore i scope inner hmem
  have hle := Nat.le_trans hn hpassed.supply_le
  obtain ⟨d', v, hrun⟩ := scalar_complete hroot hpassed.ready hpassed.isPath hw hnative hscalar hsub hbound hle
  exact ⟨d', v, hrun, (scalar_sound hroot hpassed.ready hw hnative hscalar hsub hle hrun).2⟩

/-- Binding succeeds on a pipeline that only reads from another one on which it does. -/
theorem exists_run_one {live : Scope → List Expr} (hw : e.WellFormed) (hnative : e.Native) (hc : e.kind ≠ .correlated)
    (hg : e.kind ≠ .group) (hchildren : e.children = [input])
    (hrun : ((bind stem live input).run {}).run s = .ok ((input', b), u)) (hpassed : Passed root n input input' s u b) :
    ∃ e' b t, ((bind stem live e).run {}).run s = .ok ((e', b), t) := by
  have hmem : input ∈ e.children := by simp [hchildren]
  have hlike : List.Forall₂ Expr.Alike e.children [input'] := by
    rw [hchildren]
    exact .cons (hpassed.replaced.alike (hw.child hmem) (hnative.child hmem)) .nil
  obtain ⟨e', t, hupdate⟩ := update_complete hw.checked hlike u
  exact ⟨e', b, t, (run_bind_one hc hg hchildren).2 ⟨input', u, hrun, hupdate⟩⟩

include hroot in
/-- Binding succeeds on a pipeline that reads scalars from the documents of another one, if it does on that one and the
accumulators in the scalars are tied to groups of that one. -/
theorem exists_run_two {live : Scope → List Expr} (hw : e.WellFormed) (hnative : e.Native)
    (hsub : ∀ d ∈ e.occurrences, d ∈ root.occurrences) (hanchored : e.Anchored)
    (hkind : e.kind = .filter ∨ e.kind = .project)
    (hchildren : e.children = [input, d]) (hchain : e.chain = e :: input.chain) (hscalar : d.isPipeline = false)
    (hrun : ((bind stem live input).run {}).run s = .ok ((input', b), u)) (hpassed : Passed root n input input' s u b)
    (hn : n ≤ s.nextNode) : ∃ e' b t, ((bind stem live e).run {}).run s = .ok ((e', b), t) := by
  have hinput : input ∈ e.children := by simp [hchildren]
  have hd : d ∈ e.children := by simp [hchildren]
  have hc : e.kind ≠ .correlated := by rcases hkind with h | h <;> simp [h]
  have hg : e.kind ≠ .group := by rcases hkind with h | h <;> simp [h]
  have hbefore : ∀ i scope inner, Expr.correlated i scope inner ∈ d.occurrences →
      input.chain.any (isGroupOf scope) = true := by
    intro i scope inner hmem
    have hgroup := hanchored.scalar (by rw [hchildren]; rfl) (hw.child hd) (hnative.child hd) hscalar hmem
    have hself : isGroupOf scope e = false := Expr.isGroupOf_eq_false hg scope
    rwa [hchain, List.any_cons, hself, Bool.false_or] at hgroup
  obtain ⟨d', v, hrun', hturned⟩ := exists_run_scalar hroot hpassed (hw.child hd) (hnative.child hd) hscalar
    (fun c hc => hsub c (Expr.mem_occurrences_of_child hd hc)) hbefore hn
  have hlike : List.Forall₂ Expr.Alike e.children [input', d'] := by
    rw [hchildren]
    exact .cons (hpassed.replaced.alike (hw.child hinput) (hnative.child hinput))
      (.cons (hturned.replaced.alike (hw.child hd) (hnative.child hd)) .nil)
  obtain ⟨e', t, hupdate⟩ := update_complete hw.checked hlike v
  exact ⟨e', b, t, (run_bind_two hc hg hchildren).2 ⟨input', d', b, u, v, hrun, hrun', hupdate⟩⟩

include hroot hrootw hrootn in
/-- A group can be made again with the outputs that it gets. -/
theorem exists_run_bindGroup {i : NodeInfo}
    (hnames : ∀ f ∈ (GroupPlan.ofScope stem scope old ((CorrelationMap.collect root).accumulators scope) []).1.outputs,
      Build.isOutputName f.1 = true ∧ f.1 ≠ "_id")
    (hw : (Expr.group i input key scope old).WellFormed) (hnative : (Expr.group i input key scope old).Native)
    (hinput : Replaced root [] input input') (hkey : Replaced root input'.chain key key') :
    ∃ e' b' t, ((bindGroup stem (CorrelationMap.collect root).accumulators (.group i input key scope old) input key
      scope old input' key').run c).run v = .ok ((e', b'), t) := by
  obtain ⟨hkind, hsame⟩ := accumulators_sound hroot scope
  obtain ⟨naming, hassigned, hplan⟩ : ∃ naming, Assigned stem old c.bindings _ naming ∧
      GroupPlan.ofScope stem scope old ((CorrelationMap.collect root).accumulators scope) c.bindings = _ :=
    assigned_ofScope scope c.bindings hkind hsame
  obtain ⟨⟨new, houtputs, hadds⟩, -⟩ := hassigned
  obtain ⟨hpipeline, hscalar, hnone, hold, hnodup, -⟩ := hw.checked
  have hadded : Added root scope old new := added_of_adds hnodup hadds
  have hmem : key ∈ Expr.children (.group i input key scope old) := List.mem_cons_of_mem _ List.mem_cons_self
  have hgood : ∀ f ∈ naming.outputs, Build.isOutputName f.1 = true ∧ f.1 ≠ "_id" := by
    rw [GroupPlan.outputs_ofScope_eq scope hkind [] c.bindings, hplan] at hnames
    exact hnames
  have hchecked : (Expr.group ⟨v.nextNode, .documents⟩ input' key' scope naming.outputs).Checked := by
    refine ⟨hinput.isPipeline_eq.trans hpipeline, hkey.isPipeline_eq.trans hscalar,
      hkey.containsAccumulator_eq_false (hw.child hmem) (hnative.child hmem) hscalar hnone, ?_, ?_, rfl⟩
    · have hacc : ∀ f ∈ naming.outputs, f.2.kind = .accumulator := by
        rw [houtputs]
        exact List.forall_mem_append.2 ⟨fun f hf => (hold f hf).2.2,
          fun f hf => (Replaced.added_sound hrootw hrootn hadded f hf).2.2⟩
      exact fun f hf => ⟨(hgood f hf).1, (hgood f hf).2, hacc f hf⟩
    · rw [houtputs]
      exact hadded.nodup
  by_cases hkept : isKept input key input' key' old naming.outputs = true
  · exact ⟨_, _, v, (bindGroup_run_eq_ok hplan).2 ⟨rfl, by rw [if_pos hkept]; exact ⟨rfl, rfl⟩⟩⟩
  · refine ⟨.group ⟨v.nextNode, .documents⟩ input' key' scope naming.outputs, _, v.next,
      (bindGroup_run_eq_ok hplan).2 ⟨rfl, ?_⟩⟩
    rw [if_neg hkept]
    exact (Build.group_makes input' key' scope naming.outputs v _ v.next).2 ⟨.documents, rfl, hchecked, rfl⟩

include hroot hrootw hrootn in
/-- Binding succeeds on a pipeline whose accumulators are tied to groups that come before them. -/
theorem pipeline_complete (hnames : NamesOutputs stem root) (hw : e.WellFormed) (hnative : e.Native)
    (hpipeline : e.isPipeline = true) (hsub : ∀ d ∈ e.occurrences, d ∈ root.occurrences) (hanchored : e.Anchored)
    (hn : n ≤ s.nextNode) :
    ∃ e' b t, ((bind stem (CorrelationMap.collect root).accumulators e).run {}).run s = .ok ((e', b), t) := by
  induction e using Expr.induction_children generalizing s with
  | step e ih =>
      have hinput {input : Expr} (hfirst : e.children[0]? = some input) (hp : input.isPipeline = true) :
          ∃ input' b u, ((bind stem (CorrelationMap.collect root).accumulators input).run {}).run s
            = .ok ((input', b), u) ∧ Passed root n input input' s u b := by
        have hmem := List.mem_of_getElem? hfirst
        have hbelow : ∀ d ∈ input.occurrences, d ∈ root.occurrences := fun d hd =>
          hsub d (Expr.mem_occurrences_of_child hmem hd)
        obtain ⟨input', b, u, hrun⟩ :=
          ih input hmem (hw.child hmem) (hnative.child hmem) hp hbelow (hanchored.reads hfirst) hn
        exact ⟨input', b, u, hrun,
          pipeline_sound hroot hrootw hrootn (hw.child hmem) (hnative.child hmem) hp hbelow hn hrun⟩
      have hchecked := hw.checked
      cases e with
      | constant | field | binary | unary | document | accumulator | correlated | extension => cases hpipeline
      | source i collection =>
          obtain ⟨e', t, hupdate⟩ := update_complete hchecked (.nil : List.Forall₂ _ _ []) s
          refine ⟨e', {}, t, ?_⟩
          rw [bind_kept _ _ (by simp [Expr.kind]) (by simp [Expr.kind])]
          exact run_bind_eq_ok.2 ⟨[], {}, s, rfl, run_build_eq_ok.2 ⟨hupdate, rfl⟩⟩
      | filter i input predicate =>
          obtain ⟨input', b, u, hrun, hpassed⟩ := hinput rfl hchecked.1
          exact exists_run_two hroot hw hnative hsub hanchored (.inl rfl) rfl rfl hchecked.2.1 hrun hpassed hn
      | project i input projection =>
          obtain ⟨input', b, u, hrun, hpassed⟩ := hinput rfl hchecked.1
          exact exists_run_two hroot hw hnative hsub hanchored (.inr rfl) rfl rfl hchecked.2.1 hrun hpassed hn
      | group i input key scope outputs =>
          obtain ⟨input', b, u, hrun, hpassed⟩ := hinput rfl hchecked.1
          have hmem : key ∈ Expr.children (.group i input key scope outputs) :=
            List.mem_cons_of_mem _ List.mem_cons_self
          obtain ⟨key', v, hrun', hkey⟩ := exists_run_scalar hroot hpassed (hw.child hmem) (hnative.child hmem)
            hchecked.2.1 (fun c hc => hsub c (Expr.mem_occurrences_of_child hmem hc))
            (fun _ _ _ hd => absurd rfl (Expr.isAccumulator_eq_false_iff.1
              (Expr.containsAccumulator_eq_false_iff.1 hchecked.2.2.1 _ hd)).2) hn
          obtain ⟨e', b', t, hgroup⟩ :=
            exists_run_bindGroup hroot hrootw hrootn (c := b) (v := v)
              (hnames _ _ _ _ _ (hsub _ (Expr.mem_occurrences_self _))) hw hnative hpassed.replaced hkey.replaced
          refine ⟨e', b', t, ?_⟩
          rw [bind_group]
          exact run_bind_eq_ok.2 ⟨input', b, u, hrun, run_bind_eq_ok.2 ⟨key', b, v, hrun', hgroup⟩⟩
      | sort i input | skip i input | limit i input =>
          obtain ⟨input', b, u, hrun, hpassed⟩ := hinput rfl hchecked.1
          exact exists_run_one hw hnative (by simp [Expr.kind]) (by simp [Expr.kind]) rfl hrun hpassed

end Binding

section Acceptance

/-- An accumulator that is tied to a scope comes after a group of the scope. -/
theorem Expr.Anchored.exists_group (h : root.Anchored) {i : NodeInfo} {scope : Scope} {inner : Expr}
    (hmem : Expr.correlated i scope inner ∈ root.occurrences) :
    ∃ g ∈ root.occurrences, g.isGroupOf scope = true := by
  obtain ⟨path, hat⟩ := exists_at?_of_mem_occurrences hmem
  obtain ⟨before, -, d, -, hbefore, -, hchain⟩ := h path i scope inner hat
  obtain ⟨g, hg, hgroup⟩ := List.any_eq_true.1 hchain
  exact ⟨g, mem_occurrences_trans (mem_occurrences_of_at? hbefore) (mem_occurrences_of_mem_chain hg), hgroup⟩

/-- If every accumulator that is tied to a scope comes after a group of the scope, none is without a group. -/
theorem firstDangling?_eq_none (hw : root.WellFormed) (hnative : root.Native) (h : root.Anchored) :
    (CorrelationMap.collect root).firstDangling? = none := by
  refine CorrelationMap.firstDangling?_collect_eq_none fun e he scope htied => ?_
  obtain ⟨i, inner, rfl⟩ := Expr.exists_of_isTiedTo htied
  obtain ⟨g, hg, hgroup⟩ := h.exists_group (Expr.mem_occurrences_of_visible root _ he)
  rw [Expr.countP_visible_eq hw hnative]
  exact List.countP_pos_iff.2 ⟨g, hg, hgroup⟩

/-- A pipeline without nodes of a host can be planned if no scope has two groups, every accumulator that is tied to a
scope sits in the predicate or the projection of a pipeline that reads from the group of the scope, and the outputs have
good names. -/
theorem exists_plan_of_anchored (hfresh : Fresh lo s.nextNode root.occurrences) (hw : root.WellFormed)
    (hnative : root.Native) (hpipeline : root.isPipeline = true) (hnames : Binding.NamesOutputs stem root)
    (hone : ∀ scope, root.occurrences.countP (isGroupOf scope) ≤ 1) (hanchored : root.Anchored) :
    ∃ planned t, (plan stem root).run s = .ok (planned, t) := by
  obtain ⟨e', b, t, hrun⟩ := Binding.pipeline_complete hfresh hw hnative hnames hw hnative hpipeline (fun _ hd => hd)
    hanchored (Nat.le_refl _)
  have hvisible : ∀ scope, root.visible.countP (isGroupOf scope) ≤ 1 := by
    intro scope
    rw [Expr.countP_visible_eq hw hnative]
    exact hone scope
  have hshared := CorrelationMap.find?_shared_collect_eq_none hvisible
  exact ⟨⟨e', b.groups⟩, t, plan_eq_ok.2 ⟨firstDangling?_eq_none hw hnative hanchored, hshared, b, hrun, rfl⟩⟩

/-- A pipeline without nodes of a host can be planned exactly if no scope has two groups, and every accumulator that is
tied to a scope sits in the predicate or the projection of a pipeline that reads from the group of the scope. -/
theorem exists_plan_iff (hfresh : Fresh lo s.nextNode root.occurrences) (hw : root.WellFormed) (hnative : root.Native)
    (hpipeline : root.isPipeline = true) (hstem : Binding.NumbersOutputs stem) :
    (∃ planned t, (plan stem root).run s = .ok (planned, t)) ↔
      (∀ scope, root.occurrences.countP (isGroupOf scope) ≤ 1) ∧ root.Anchored := by
  constructor
  · rintro ⟨planned, t, h⟩
    exact ⟨countP_isGroupOf_le_one hw hnative h, (turned_of_plan hfresh hw hnative h).1.anchored hw hnative⟩
  · rintro ⟨hone, hanchored⟩
    exact exists_plan_of_anchored hfresh hw hnative hpipeline (hstem.namesOutputs hfresh hw) hone hanchored

end Acceptance

end Aggregation
