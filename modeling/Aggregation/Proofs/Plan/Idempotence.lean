import Aggregation.Proofs.Plan.Groups
import Aggregation.Proofs.Plan.Standing
import Mathlib.Data.List.Flatten

/-!
Planning what has been planned. A plan leaves no accumulator that is tied to a scope, its groups stand in its tree with
their outputs, and no group is there that was not in the tree before. Another plan therefore changes nothing, unless two
groups of one scope have come in sight: what stands in the operand of an accumulator is out of sight before the
accumulator becomes an output, and in sight afterwards.
-/

namespace Aggregation

open Aggregation.Expr (isGroupOf isTiedTo)

/-- The plan of a group whose outputs nothing reads. -/
def GroupPlan.unread (p : GroupPlan) : GroupPlan := { p with occurrences := 0 }

/-- Whether a node is an accumulator that is tied to some scope. -/
def Expr.isTied (e : Expr) : Bool := e.kind = .correlated

/-- What stands below a node. -/
def Expr.descendants (e : Expr) : List Expr := e.children.flatMap Expr.occurrences

theorem GroupPlan.exists_new_assign (stem : String) (s : Naming) (e : Expr) :
    ∃ new, (s.assign stem e).outputs = s.outputs ++ new ∧ (new.map Prod.snd).Sublist e.children := by
  cases e with
  | correlated i scope inner =>
      cases hname : sharedName? s.outputs inner with
      | some name =>
          rw [assign_of_sharedName? hname]
          exact ⟨[], (List.append_nil _).symm, List.nil_sublist _⟩
      | none =>
          obtain ⟨name, number, hassign⟩ := exists_assign_of_sharedName?_eq_none hname i scope
          rw [hassign]
          exact ⟨[(name, inner)], rfl, List.Sublist.refl _⟩
  | constant | field | binary | unary | document | accumulator | source | filter | group | project | sort | skip
  | limit | extension => exact ⟨[], (List.append_nil _).symm, List.nil_sublist _⟩

/-- The new outputs of a scope are some of its accumulators, in their order. -/
theorem GroupPlan.exists_new_ofScope (stem : String) (scope : Scope) (existing : List (String × Expr))
    (live : List Expr) (bindings : Bindings) :
    ∃ new, (ofScope stem scope existing live bindings).1.outputs = existing ++ new ∧
      (new.map Prod.snd).Sublist (live.flatMap Expr.children) := by
  have hfold (s : Naming) : ∃ new, (live.foldl (Naming.assign stem) s).outputs = s.outputs ++ new ∧
      (new.map Prod.snd).Sublist (live.flatMap Expr.children) := by
    induction live generalizing s with
    | nil => exact ⟨[], (List.append_nil _).symm, List.Sublist.refl _⟩
    | cons e rest ih =>
        obtain ⟨first, hfirst, hsub⟩ := exists_new_assign stem s e
        obtain ⟨new, hnew, hsubs⟩ := ih (s.assign stem e)
        refine ⟨first ++ new, ?_, ?_⟩
        · rw [List.foldl_cons, hnew, hfirst, List.append_assoc]
        · rw [List.map_append, List.flatMap_cons]
          exact hsub.append hsubs
  exact hfold { outputs := existing, bindings }

namespace Binding

variable {stem : String} {root e e' : Expr} {lo n : Nat} {b b' : State} {s t : Supply} {scope : Scope}

/-- What stands in the operands of the accumulators of the plans that there are. -/
def carried (root : Expr) (b : State) : List Expr :=
  b.groups.flatMap fun p => ((CorrelationMap.collect root).accumulators p.scope).flatMap Expr.descendants

/-- What binding leaves: no accumulator that is tied to a scope, the new plans as they stand, and no more groups than
were in sight or in the operands of the accumulators of these plans. -/
structure Leaves (root e : Expr) (b : State) (e' : Expr) (b' : State) : Prop where
  untied : e'.Untied
  plans : b'.groups.map GroupPlan.unread = b.groups.map GroupPlan.unread ++ e'.standing
  count_le : ∀ scope, e'.occurrences.countP (isGroupOf scope) + (carried root b).countP (isGroupOf scope) ≤
    e.visible.countP (isGroupOf scope) + (carried root b').countP (isGroupOf scope)

/-- What binding nodes in turn leaves. -/
structure AllLeave (root : Expr) (es : List Expr) (b : State) (es' : List Expr) (b' : State) : Prop where
  untied : ∀ e ∈ es', e.Untied
  plans : b'.groups.map GroupPlan.unread = b.groups.map GroupPlan.unread ++ es'.flatMap Expr.standing
  count_le : ∀ scope, (es'.flatMap Expr.occurrences).countP (isGroupOf scope) +
      (carried root b).countP (isGroupOf scope) ≤
    (es.flatMap Expr.visible).countP (isGroupOf scope) + (carried root b').countP (isGroupOf scope)

theorem allLeave_of_mapM (hroot : Fresh lo n root.occurrences) {es es' : List Expr}
    (hvisible : ∀ e ∈ es, ∀ d ∈ e.visible, d ∈ root.visible) (hn : n ≤ s.nextNode) (hsound : Sound root b)
    (ih : ∀ e ∈ es, ∀ {b b' : State} {s t : Supply} {e' : Expr}, n ≤ s.nextNode → Sound root b →
      ((bind stem (CorrelationMap.collect root).accumulators e).run b).run s = .ok ((e', b'), t) →
        Leaves root e b e' b')
    (h : ((es.mapM (bind stem (CorrelationMap.collect root).accumulators)).run b).run s = .ok ((es', b'), t)) :
    AllLeave root es b es' b' := by
  induction es generalizing b s es' with
  | nil =>
      obtain ⟨rfl, rfl, rfl⟩ := run_mapM_nil_eq_ok.1 h
      exact ⟨List.forall_mem_nil _, (List.append_nil _).symm, fun _ => Nat.le_refl _⟩
  | cons e rest ihrest =>
      obtain ⟨e', rest', c, u, he, hrest, rfl⟩ := run_mapM_cons_eq_ok.1 h
      obtain ⟨hvisible, hvisibles⟩ := List.forall_mem_cons.1 hvisible
      have hbinds := binds hroot e hvisible hn hsound he
      have hfirst := ih e List.mem_cons_self hn hsound he
      have hothers := ihrest hvisibles (Nat.le_trans hn hbinds.supply_le) hbinds.sound
        (fun d hd => ih d (List.mem_cons_of_mem _ hd)) hrest
      refine ⟨List.forall_mem_cons.2 ⟨hfirst.untied, hothers.untied⟩, ?_, fun scope => ?_⟩
      · rw [hothers.plans, hfirst.plans, List.flatMap_cons, List.append_assoc]
      · have hcount := hfirst.count_le scope
        have hcounts := hothers.count_le scope
        rw [List.flatMap_cons, List.flatMap_cons, List.countP_append, List.countP_append]
        omega

/-- An update leaves a node of the kind over the given children. -/
theorem children_of_update {es' : List Expr} (hlt : ∀ c ∈ e.children, c.serial < n)
    (hnew : List.Forall₂ (fun c c' => c' = c ∨ n ≤ c'.serial) e.children es')
    (h : (e.update es').run s = .ok (e', t)) : e'.kind = e.kind ∧ e'.children = es' := by
  obtain ⟨hlength, ⟨hserials, rfl, -⟩ | ⟨i, rfl, -⟩⟩ := Expr.update_eq_ok h
  · exact ⟨rfl, (eq_of_serials hnew hlt hserials).symm⟩
  · exact ⟨Replaced.kind_withChildren .., Expr.children_withChildren hlength⟩

theorem leaves_kept {es' : List Expr} (hc : e.kind ≠ .correlated) (hg : e.kind ≠ .group) (hkind : e'.kind = e.kind)
    (hchildren : e'.children = es') (hall : AllLeave root e.children b es' b') : Leaves root e b e' b' := by
  have hg' : e'.kind ≠ .group := by rwa [hkind]
  refine ⟨Expr.untied_iff.2 ⟨by rwa [hkind], by rw [hchildren]; exact hall.untied⟩, ?_, fun scope => ?_⟩
  · rw [hall.plans, Expr.standing_of_kind_ne hg', hchildren]
  · have hcount := hall.count_le scope
    rw [Expr.occurrences_eq, Expr.visible_eq, if_neg hc, hchildren, List.countP_cons, List.countP_cons,
      Expr.isGroupOf_eq_false hg, Expr.isGroupOf_eq_false hg']
    exact hcount

theorem leaves_correlated {i : NodeInfo} {inner : Expr}
    (h : ((readOutput (.correlated i scope inner) scope).run b).run s = .ok ((e', b'), t)) :
    Leaves root (.correlated i scope inner) b e' b' := by
  obtain ⟨-, rfl, name, -, hfield⟩ := readOutput_eq_ok.1 h
  obtain ⟨-, j, rfl, -⟩ := Build.field_eq_ok hfield
  have hstanding : Expr.standing (.field j name) = [] := Expr.standing_of_kind_ne (by simp [Expr.kind])
  have hoccurrences : Expr.occurrences (.field j name) = [.field j name] := Expr.occurrences_eq _
  refine ⟨Expr.untied_iff.2 ⟨by simp [Expr.kind], List.forall_mem_nil _⟩, ?_, fun sc => ?_⟩
  · rw [hstanding, List.append_nil]
  · rw [hoccurrences]
    exact Nat.add_le_add_right (Nat.zero_le _) _

theorem untied_of_accumulator (hchecked : e.Checked) (hkind : e.kind = .accumulator) : e.Untied :=
  Expr.untied_of_occurrences fun _ hd => Expr.kind_ne_correlated_of_accumulator hchecked hkind hd

/-- The outputs of a plan are accumulators of the tree, so none that is tied to a scope stands in them. -/
theorem untied_of_outputs (hrootw : root.WellFormed) {i : NodeInfo} {input key : Expr}
    {old new : List (String × Expr)} (hmem : Expr.group i input key scope old ∈ root.occurrences)
    (hnew : (new.map Prod.snd).Sublist (((CorrelationMap.collect root).accumulators scope).flatMap Expr.children)) :
    ∀ c ∈ (old ++ new).map Prod.snd, c.Untied := by
  intro c hc
  rw [List.map_append] at hc
  rcases List.mem_append.1 hc with hc | hc
  · have hchild : c ∈ Expr.children (.group i input key scope old) :=
      List.mem_cons_of_mem _ (List.mem_cons_of_mem _ hc)
    obtain ⟨f, hf, rfl⟩ := List.mem_map.1 hc
    have hw := hrootw _ (Expr.mem_occurrences_trans hmem (Expr.mem_occurrences_of_child hchild
      (Expr.mem_occurrences_self _)))
    exact untied_of_accumulator hw ((hrootw _ hmem).2.2.2.1 f hf).2.2
  · obtain ⟨d, hd, hc⟩ := List.mem_flatMap.1 (hnew.subset hc)
    rw [CorrelationMap.accumulators_collect] at hd
    obtain ⟨hd, htied⟩ := List.mem_filter.1 hd
    have hd := Expr.mem_occurrences_of_visible root d hd
    have hw := hrootw _ (Expr.mem_occurrences_trans hd (Expr.mem_occurrences_of_child hc (Expr.mem_occurrences_self _)))
    obtain ⟨j, inner, rfl⟩ := Expr.exists_of_isTiedTo htied
    exact untied_of_accumulator hw (Expr.kind_child_correlated (hrootw _ hd) rfl hc)

theorem carried_append {p : GroupPlan} (h : b'.groups = b.groups ++ [p]) :
    carried root b' =
      carried root b ++ ((CorrelationMap.collect root).accumulators p.scope).flatMap Expr.descendants := by
  rw [carried, h, List.flatMap_append, List.flatMap_singleton]
  rfl

theorem leaves_group {i : NodeInfo} {input input' key key' : Expr} {old : List (String × Expr)} {c d : State}
    {v : Supply} (hroot : Fresh lo n root.occurrences) (hrootw : root.WellFormed)
    (hmem : Expr.group i input key scope old ∈ root.occurrences) (hinput : Leaves root input b input' c)
    (hkey : Leaves root key c key' d) (hsameInput : input'.serial = input.serial → input' = input)
    (hsameKey : key'.serial = key.serial → key' = key)
    (h : ((bindGroup stem (CorrelationMap.collect root).accumulators (.group i input key scope old) input key scope
      old input' key').run d).run v = .ok ((e', b'), t)) :
    Leaves root (.group i input key scope old) b e' b' := by
  obtain ⟨⟨p, bindings⟩, hplan⟩ : ∃ r, GroupPlan.ofScope stem scope old
    ((CorrelationMap.collect root).accumulators scope) d.bindings = r := ⟨_, rfl⟩
  obtain ⟨m, rfl, hgroups⟩ :=
    exists_group_of_bindGroup hroot hplan h hsameInput hsameKey (hrootw _ hmem).2.2.2.2.2
  obtain ⟨new, houtputs, hsub⟩ := GroupPlan.exists_new_ofScope stem scope old
    ((CorrelationMap.collect root).accumulators scope) d.bindings
  rw [hplan] at houtputs
  have hscope : p.scope = scope := (congrArg (fun r => r.1.scope) hplan).symm
  have huntied := untied_of_outputs hrootw hmem hsub
  rw [← houtputs] at huntied
  refine ⟨Expr.untied_iff.2 ⟨by simp [Expr.kind], ?_⟩, ?_, fun sc => ?_⟩
  · exact List.forall_mem_cons.2 ⟨hinput.untied, List.forall_mem_cons.2 ⟨hkey.untied, huntied⟩⟩
  · have hunread : p.unread = ⟨scope, p.outputs, 0⟩ := by rw [GroupPlan.unread, hscope]
    rw [hgroups, List.map_append, hkey.plans, hinput.plans, Expr.standing_group, List.map_singleton, hunread]
    simp only [List.append_assoc]
  · -- the outputs that there were have been in sight; the new ones stood in the operands of accumulators of the scope
    have hold : (old.map Prod.snd).flatMap Expr.visible = (old.map Prod.snd).flatMap Expr.occurrences := by
      refine List.flatMap_congr fun c hc => (huntied c ?_).visible_eq_occurrences
      rw [houtputs, List.map_append]
      exact List.mem_append_left _ hc
    have hnew : ((new.map Prod.snd).flatMap Expr.occurrences).countP (isGroupOf sc) ≤
        (((CorrelationMap.collect root).accumulators scope).flatMap Expr.descendants).countP (isGroupOf sc) := by
      have hle := (hsub.flatMap Expr.occurrences).countP_le (p := isGroupOf sc)
      rwa [List.flatMap_assoc] at hle
    have hfirst := hinput.count_le sc
    have hsecond := hkey.count_le sc
    have houtputs : p.outputs.map Prod.snd = old.map Prod.snd ++ new.map Prod.snd := by
      rw [houtputs, List.map_append]
    rw [Expr.occurrences_eq, Expr.visible_eq, if_neg (by simp [Expr.kind]), countP_group, countP_group, houtputs,
      List.flatMap_append, List.countP_append, hold, carried_append hgroups, List.countP_append, hscope]
    omega

/-- Binding a tree, or any part of it that is in sight, leaves what is left. -/
theorem leaves_of_bind (hroot : Fresh lo n root.occurrences) (hrootw : root.WellFormed) (e : Expr) :
    ∀ {b b' : State} {s t : Supply} {e' : Expr}, (∀ d ∈ e.visible, d ∈ root.visible) → n ≤ s.nextNode →
      Sound root b → ((bind stem (CorrelationMap.collect root).accumulators e).run b).run s = .ok ((e', b'), t) →
        Leaves root e b e' b' := by
  induction e using Expr.induction_children with
  | step e ih =>
      intro b b' s t e' hvisible hn hsound h
      by_cases hc : e.kind = .correlated
      · obtain ⟨i, scope, inner, rfl⟩ := Expr.exists_of_kind_eq_correlated hc
        rw [bind_correlated] at h
        exact leaves_correlated h
      have hchild : ∀ c ∈ e.children, ∀ d ∈ c.visible, d ∈ root.visible :=
        fun c hmem d hd => hvisible d (visible_of_child hc hmem d hd)
      have hmem := Expr.mem_occurrences_of_visible root e (hvisible e (mem_visible_self e))
      have hlt := serial_lt_of_child hroot fun d hd => Expr.mem_occurrences_trans hmem hd
      by_cases hg : e.kind = .group
      · obtain ⟨i, input, key, scope, outputs, rfl⟩ := Expr.exists_of_kind_eq_group hg
        rw [bind_group] at h
        obtain ⟨input', c, u, hinput, h⟩ := run_bind_eq_ok.1 h
        obtain ⟨key', d, v, hkey, h⟩ := run_bind_eq_ok.1 h
        have hfirst : input ∈ Expr.children (.group i input key scope outputs) := List.mem_cons_self
        have hsecond : key ∈ Expr.children (.group i input key scope outputs) :=
          List.mem_cons_of_mem _ List.mem_cons_self
        have hbinds := binds hroot input (hchild input hfirst) hn hsound hinput
        have hle := Nat.le_trans hn hbinds.supply_le
        have hbinds' := binds hroot key (hchild key hsecond) hle hbinds.sound hkey
        exact leaves_group hroot hrootw hmem (ih input hfirst (hchild input hfirst) hn hsound hinput)
          (ih key hsecond (hchild key hsecond) hle hbinds.sound hkey)
          (fun hserial => hbinds.eq_or_new.resolve_right fun hnew => by have := hlt input hfirst; omega)
          (fun hserial => hbinds'.eq_or_new.resolve_right fun hnew => by have := hlt key hsecond; omega) h
      · rw [bind_kept _ _ hc hg] at h
        obtain ⟨children, c, u, hchildren, h⟩ := run_bind_eq_ok.1 h
        obtain ⟨hupdate, rfl⟩ := run_build_eq_ok.1 h
        have hall := allLeave_of_mapM hroot hchild hn hsound (fun d hd => ih d hd (hchild d hd)) hchildren
        have hbinds := allBind_of_mapM hn hsound (fun d hd => binds hroot d (hchild d hd)) hchildren
        obtain ⟨hkind, hnew⟩ := children_of_update hlt hbinds.eq_or_new hupdate
        exact leaves_kept hc hg hkind hnew hall

end Binding

section Counts

variable {root : Expr} {plans : List GroupPlan} {es : List Expr} {scope : Scope}

/-- What occurs in a tree is in sight, or stands below an accumulator that is tied to a scope. -/
theorem Expr.countP_occurrences_eq (e : Expr) (q : Expr → Bool) : e.occurrences.countP q =
    e.visible.countP q + ((e.visible.filter isTied).flatMap descendants).countP q := by
  induction e using induction_children with
  | step e ih =>
      by_cases hk : e.kind = .correlated
      · have hkept : [e].filter isTied = [e] := List.filter_cons_of_pos (decide_eq_true hk)
        rw [occurrences_eq, visible_eq, if_pos hk, hkept,
          List.flatMap_singleton, ← List.singleton_append, List.countP_append, descendants]
      · have hall : ∀ es : List Expr, (∀ c ∈ es, c ∈ e.children) → (es.flatMap occurrences).countP q =
            (es.flatMap visible).countP q +
              (((es.flatMap visible).filter isTied).flatMap descendants).countP q := by
          intro es hes
          induction es with
          | nil => rfl
          | cons c rest ihrest =>
              obtain ⟨hc, hrest⟩ := List.forall_mem_cons.1 hes
              simp only [List.flatMap_cons, List.filter_append, List.flatMap_append, List.countP_append, ih c hc,
                ihrest hrest]
              omega
        have hdropped : ¬ e.isTied = true := fun h => hk (of_decide_eq_true h)
        rw [occurrences_eq, visible_eq, if_neg hk, List.filter_cons_of_neg hdropped, List.countP_cons, List.countP_cons,
          hall e.children fun _ hc => hc]
        omega

theorem sum_map_ite (q : GroupPlan → Bool) (w : Nat) (plans : List GroupPlan) :
    (plans.map fun p => if q p = true then w else 0).sum = plans.countP q * w := by
  induction plans with
  | nil => exact (Nat.zero_mul w).symm
  | cons p rest ih =>
      rw [List.map_cons, List.sum_cons, ih, List.countP_cons]
      by_cases hp : q p = true
      · rw [if_pos hp, if_pos hp, Nat.add_one_mul, Nat.add_comm]
      · rw [if_neg hp, if_neg hp, Nat.zero_add, Nat.add_zero]

/-- A node is tied to the scope of one plan at most. -/
theorem countP_isTiedTo_le (hnodup : (plans.map GroupPlan.scope).Nodup) (e : Expr) :
    plans.countP (fun p => isTiedTo p.scope e) ≤ if e.kind = .correlated then 1 else 0 := by
  cases e with
  | correlated i scope inner =>
      have hone := List.nodup_iff_count_le_one.1 hnodup scope
      rw [List.count_eq_countP, List.countP_map] at hone
      refine Nat.le_trans (Nat.le_of_eq (List.countP_congr fun p _ => ?_)) hone
      show decide (scope = p.scope) = true ↔ (p.scope == scope) = true
      rw [decide_eq_true_eq, beq_iff_eq, eq_comm]
  | constant | field | binary | unary | document | accumulator | source | filter | group | project | sort | skip
  | limit | extension => simp [isTiedTo, Expr.kind]

/-- What the plans of different scopes carry stands below accumulators that are tied to a scope. -/
theorem countP_tied_le (hnodup : (plans.map GroupPlan.scope).Nodup) (f : Expr → List Expr) (q : Expr → Bool)
    (es : List Expr) : (plans.flatMap fun p => (es.filter (isTiedTo p.scope)).flatMap f).countP q ≤
      ((es.filter Expr.isTied).flatMap f).countP q := by
  induction es with
  | nil => simp
  | cons e rest ih =>
      have hfirst (p : Expr → Bool) : (((e :: rest).filter p).flatMap f).countP q =
          (if p e = true then (f e).countP q else 0) + ((rest.filter p).flatMap f).countP q := by
        by_cases hp : p e = true
        · rw [List.filter_cons_of_pos hp, List.flatMap_cons, List.countP_append, if_pos hp]
        · rw [List.filter_cons_of_neg hp, if_neg hp, Nat.zero_add]
      have hone : plans.countP (fun p => isTiedTo p.scope e) * (f e).countP q ≤
          if e.isTied = true then (f e).countP q else 0 := by
        have hle := Nat.mul_le_mul_right ((f e).countP q) (countP_isTiedTo_le hnodup e)
        by_cases hk : e.kind = .correlated
        · rw [if_pos hk, Nat.one_mul] at hle
          rwa [Expr.isTied, if_pos (decide_eq_true hk)]
        · rw [if_neg hk, Nat.zero_mul] at hle
          exact Nat.le_trans hle (Nat.zero_le _)
      rw [List.countP_flatMap] at ih ⊢
      simp only [Function.comp_def, hfirst, List.sum_map_add, sum_map_ite] at ih ⊢
      exact Nat.add_le_add hone ih

end Counts

section Plans

variable {stem : String} {root : Expr} {planned : PlannedTree} {held : List Expr} {lo : Nat} {s t : Supply}

/-- What a plan leaves of a tree. -/
theorem leaves_of_plan (hroot : Fresh lo s.nextNode root.occurrences) (hw : root.WellFormed)
    (h : (plan stem root).run s = .ok (planned, t)) :
    planned.root.Untied ∧ planned.groups.map GroupPlan.unread = planned.root.standing ∧
      ∀ scope, planned.root.occurrences.countP (isGroupOf scope) ≤ root.occurrences.countP (isGroupOf scope) := by
  obtain ⟨-, -, b, hbind, hgroups⟩ := plan_eq_ok.1 h
  have hsound : Binding.Sound root {} := fun _ hx => absurd hx List.not_mem_nil
  have hleaves := Binding.leaves_of_bind hroot hw root (fun _ hd => hd) (Nat.le_refl _) hsound hbind
  refine ⟨hleaves.untied, ?_, fun scope => ?_⟩
  · rw [hgroups]
    exact hleaves.plans
  · have hnodup := (bound_of_plan hroot h).2
    rw [hgroups] at hnodup
    calc planned.root.occurrences.countP (isGroupOf scope)
      _ ≤ root.visible.countP (isGroupOf scope) + (Binding.carried root b).countP (isGroupOf scope) :=
        hleaves.count_le scope
      _ ≤ root.visible.countP (isGroupOf scope) +
          ((root.visible.filter Expr.isTied).flatMap Expr.descendants).countP (isGroupOf scope) := by
        apply Nat.add_le_add_left
        rw [Binding.carried]
        simp only [CorrelationMap.accumulators_collect]
        exact countP_tied_le hnodup _ _ _
      _ = root.occurrences.countP (isGroupOf scope) := (root.countP_occurrences_eq _).symm

/-- Another plan of a planned tree, over whatever stem and supply, gives the very tree with the plans as they stand, and
builds no node. It is refused exactly if a scope has two groups by then, which cannot be if it had not two before, the
operands of accumulators included; a tree without nodes of a host that is planned never has. A tree to which no
accumulator is tied is its own plan. -/
theorem plan_again (hheld : Build.Held s held) (hroot : root ∈ held)
    (h : (plan stem root).run s = .ok (planned, t)) :
    (root.OneGroupEach ∨ root.Native → planned.root.OneGroupEach) ∧
      (∀ stem' u, planned.root.OneGroupEach →
        (plan stem' planned.root).run u = .ok (⟨planned.root, planned.groups.map GroupPlan.unread⟩, u)) ∧
      (∀ stem' u, ¬ planned.root.OneGroupEach → ∃ scope n,
        (plan stem' planned.root).run u = .error (.expression (.sharedScope scope n))) ∧
      ((∀ d ∈ root.occurrences, d.kind ≠ .correlated) → planned.root = root ∧ t = s) := by
  have hw := hheld.wellFormed hroot
  obtain ⟨huntied, hplans, hcount⟩ := leaves_of_plan (hheld.fresh hroot) hw h
  refine ⟨fun hone scope => ?_, fun stem' u hone => ?_, fun stem' u htwo => ?_, fun hnone => ?_⟩
  · apply Nat.le_trans (hcount scope)
    rcases hone with hone | hnative
    · exact hone scope
    · exact countP_isGroupOf_le_one hw hnative h scope
  · rw [hplans]
    exact plan_untied huntied hone stem' u
  · obtain ⟨scope, -, herror⟩ := plan_untied_refused huntied htwo stem' u
    exact ⟨scope, _, herror⟩
  · have hroot' := Expr.untied_of_occurrences hnone
    by_cases hone : root.OneGroupEach
    · rw [plan_untied hroot' hone] at h
      cases h
      exact ⟨rfl, rfl⟩
    · obtain ⟨scope, -, herror⟩ := plan_untied_refused hroot' hone stem s
      rw [herror] at h
      cases h

/-- The counts that three accumulators read are not planned anew. -/
theorem plan_again_repeatedCounts : ∃ s held root planned t, Build.Held s held ∧ root ∈ held ∧
    (plan defaultStem root).run s = .ok (planned, t) ∧ planned.groups.map GroupPlan.occurrences = [3] ∧
    (plan "count" planned.root).run t = .ok (⟨planned.root, planned.groups.map GroupPlan.unread⟩, t) := by
  obtain ⟨root, s, planned, t, hbuild, hplan, hcheck⟩ := exists_plan_of_run (x := repeatedCounts.build)
    (p := fun root planned => root.occurrences.all (fun e => !e.isExtension) &&
      decide (planned.groups.map GroupPlan.occurrences = [3])) (by decide +kernel)
  obtain ⟨hnative, hcounts⟩ := (Bool.and_eq_true _ _).mp hcheck
  obtain ⟨held, hheld, hroot⟩ := Query.exists_held_of_build hbuild
  have hnative : root.Native := fun e he => by simpa using List.all_eq_true.1 hnative e he
  obtain ⟨hone, hagain, -⟩ := plan_again hheld hroot hplan
  exact ⟨s, held, root, planned, t, hheld, hroot, hplan, of_decide_eq_true hcounts,
    hagain "count" t (hone (.inr hnative))⟩

/-- The regions with the first of something that a host makes of the very groups. -/
def firstOfGroups : Build Expr := do
  let (scope, r) ← Resolver.mint {}
  let orders ← Build.source "orders"
  let region ← Build.field "region" .string
  let grouped ← Build.group orders region scope []
  let hosted ← Build.extension "ext" [grouped]
  let first ← Build.accumulator .first (some hosted)
  let tied ← r.tag first scope
  Build.project grouped tied

open Build (Held run_bind_eq_ok run_pure_eq_ok) in
theorem exists_held_firstOfGroups {e : Expr} {s : Supply} (h : firstOfGroups.run {} = .ok (e, s)) :
    ∃ held, Held s held ∧ e ∈ held := by
  obtain ⟨⟨scope, r⟩, s₀, hmint, h⟩ := run_bind_eq_ok.1 h
  obtain ⟨minted, u, hscope, hpair⟩ := run_bind_eq_ok.1 hmint
  obtain ⟨-, rfl⟩ := run_pure_eq_ok.1 hpair
  obtain ⟨orders, s₁, horders, h⟩ := run_bind_eq_ok.1 h
  obtain ⟨region, s₂, hregion, h⟩ := run_bind_eq_ok.1 h
  obtain ⟨grouped, s₃, hgrouped, h⟩ := run_bind_eq_ok.1 h
  obtain ⟨hosted, s₄, hhosted, h⟩ := run_bind_eq_ok.1 h
  obtain ⟨first, s₅, hfirst, h⟩ := run_bind_eq_ok.1 h
  obtain ⟨tied, s₆, htied, h⟩ := run_bind_eq_ok.1 h
  have h₁ := Held.node (.scope (.nothing {}) hscope) (.source "orders") horders
  have h₂ := h₁.node (.field "region" .string) hregion
  have h₃ := h₂.node (.group scope (by simp) (by simp) (by simp)) hgrouped
  have h₄ := h₃.node (.extension "ext" (by simp)) hhosted
  have h₅ := h₄.node (.accumulator .first (by simp)) hfirst
  have h₆ := h₅.node (.tag r scope (by simp)) htied
  exact ⟨_, h₆.node (.project (by simp) (by simp)) h, List.mem_cons_self⟩

/-- A group in the operand of an accumulator is not counted before the accumulator is an output, so a tree that has been
planned can be refused. -/
theorem plan_again_firstOfGroups_ne : ∃ s held root planned t, Build.Held s held ∧ root ∈ held ∧
    (plan defaultStem root).run s = .ok (planned, t) ∧
    ∃ scope n, (plan defaultStem planned.root).run t = .error (.expression (.sharedScope scope n)) := by
  obtain ⟨root, s, planned, t, hbuild, hplan, hcheck⟩ := exists_plan_of_run (x := firstOfGroups)
    (p := fun _ planned => decide (planned.root.occurrences.countP (isGroupOf ⟨1⟩) = 2)) (by decide +kernel)
  obtain ⟨held, hheld, hroot⟩ := exists_held_firstOfGroups hbuild
  obtain ⟨huntied, -, -⟩ := leaves_of_plan (hheld.fresh hroot) (hheld.wellFormed hroot) hplan
  have htwo : ¬ planned.root.OneGroupEach := by
    intro hone
    have hle := hone ⟨1⟩
    rw [of_decide_eq_true hcheck] at hle
    exact absurd hle (by decide)
  obtain ⟨scope, -, herror⟩ := plan_untied_refused huntied htwo defaultStem t
  exact ⟨s, held, root, planned, t, hheld, hroot, hplan, scope, _, herror⟩

end Plans

end Aggregation
