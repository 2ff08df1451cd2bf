import Aggregation.Proofs.Plan.Soundness

/-!
Planning a tree to whose scopes no accumulator is tied. Nothing is bound, so the plans are those of the groups as they
stand and every node stays; the plan is refused only if a scope has two groups.
-/

namespace Aggregation

open Aggregation.Expr (isGroupOf isTiedTo)

namespace Expr

/-- The plans of the groups of a tree as they stand, in the order in which binding reaches them. No accumulator reads an
output. -/
def standing (e : Expr) : List GroupPlan :=
  match _h : e with
  | .group _ input key scope outputs => input.standing ++ key.standing ++ [⟨scope, outputs, 0⟩]
  | _ => e.children.attach.flatMap fun ⟨c, _⟩ => c.standing
termination_by sizeOf e
decreasing_by
  all_goals subst _h
  · exact sizeOf_lt_of_mem_children (by simp [children])
  · exact sizeOf_lt_of_mem_children (by simp [children])
  · exact sizeOf_lt_of_mem_children ‹_›

theorem standing_group (i : NodeInfo) (input key : Expr) (scope : Scope) (outputs : List (String × Expr)) :
    standing (.group i input key scope outputs) = input.standing ++ key.standing ++ [⟨scope, outputs, 0⟩] := by
  rw [standing]

theorem standing_of_kind_ne {e : Expr} (hg : e.kind ≠ .group) : e.standing = e.children.flatMap standing := by
  cases e with
  | group => exact absurd rfl hg
  | constant | field | binary | unary | document | accumulator | correlated | source | filter | project | sort | skip
  | limit | extension =>
      rw [standing, List.flatMap_subtype (g := standing) (fun _ _ => rfl), List.unattach_attach]
      all_goals simp

/-- Whether no accumulator in sight is tied to a scope. -/
def Untied (e : Expr) : Prop := ∀ d ∈ e.visible, d.kind ≠ .correlated

theorem untied_iff {e : Expr} : e.Untied ↔ e.kind ≠ .correlated ∧ ∀ c ∈ e.children, c.Untied := by
  constructor
  · intro h
    have hk : e.kind ≠ .correlated := h e (Binding.mem_visible_self e)
    exact ⟨hk, fun c hc d hd => h d (Binding.visible_of_child hk hc d hd)⟩
  · rintro ⟨hk, h⟩ d hd
    rcases exists_child_of_mem_visible hd hk with rfl | ⟨c, hc, hd⟩
    · exact hk
    · exact h c hc d hd

/-- Everything is in sight if no accumulator is tied to a scope. -/
theorem Untied.visible_eq_occurrences {e : Expr} (h : e.Untied) : e.visible = e.occurrences := by
  induction e using induction_children with
  | step e ih =>
      obtain ⟨hk, hchildren⟩ := untied_iff.1 h
      rw [visible_eq, if_neg hk, occurrences_eq]
      exact congrArg (e :: ·) (List.flatMap_congr fun c hc => ih c hc (hchildren c hc))

theorem untied_of_occurrences {e : Expr} (h : ∀ d ∈ e.occurrences, d.kind ≠ .correlated) : e.Untied :=
  fun d hd => h d (mem_occurrences_of_visible e d hd)

/-- No scope has two groups, whether in sight or not. -/
def OneGroupEach (e : Expr) : Prop := ∀ scope, e.occurrences.countP (isGroupOf scope) ≤ 1

end Expr

namespace CorrelationMap

theorem accumulators_of_untied {e : Expr} (h : e.Untied) (scope : Scope) : (collect e).accumulators scope = [] := by
  rw [accumulators_collect, List.filter_eq_nil_iff]
  intro d hd htied
  obtain ⟨i, inner, rfl⟩ := Expr.exists_of_isTiedTo htied
  exact h _ hd rfl

theorem firstDangling?_of_untied {e : Expr} (h : e.Untied) : (collect e).firstDangling? = none := by
  refine firstDangling?_collect_eq_none fun d hd scope htied => ?_
  obtain ⟨i, inner, rfl⟩ := Expr.exists_of_isTiedTo htied
  exact absurd rfl (h _ hd)

theorem groupCount_of_untied {e : Expr} (h : e.Untied) (scope : Scope) :
    (collect e).groupCount scope = e.occurrences.countP (isGroupOf scope) := by
  rw [groupCount_collect, h.visible_eq_occurrences]

end CorrelationMap

namespace Binding

variable {stem : String} {live : Scope → List Expr} {e : Expr} {b : State} {s : Supply}

/-- A node over its own children is itself. -/
theorem update_children (e : Expr) (s : Supply) : (e.update e.children).run s = .ok (e, s) := by
  have hover : e.isOver e.children = true := by
    refine List.all_eq_true.2 fun p hp => ?_
    have hsame : p.1 = p.2 := by
      rw [List.zip_eq_zipWith, List.zipWith_self] at hp
      obtain ⟨c, -, rfl⟩ := List.mem_map.1 hp
      rfl
    rw [hsame]
    exact beq_self_eq_true _
  exact Expr.update_run_iff.2 ⟨rfl, (if_pos hover).mpr ⟨rfl, rfl⟩⟩

theorem mapM_standing {es : List Expr}
    (h : ∀ e ∈ es, ∀ b s, ∃ bound, ((bind stem live e).run b).run s =
      .ok ((e, ⟨bound, b.bindings, b.groups ++ e.standing⟩), s)) (b : State) (s : Supply) :
    ∃ bound, ((es.mapM (bind stem live)).run b).run s =
      .ok ((es, ⟨bound, b.bindings, b.groups ++ es.flatMap Expr.standing⟩), s) := by
  induction es generalizing b with
  | nil => exact ⟨b.bound, by rw [List.flatMap_nil, List.append_nil]; rfl⟩
  | cons e rest ih =>
      obtain ⟨hfirst, hrest⟩ := List.forall_mem_cons.1 h
      obtain ⟨bound, hrun⟩ := hfirst b s
      obtain ⟨bound', hruns⟩ := ih hrest ⟨bound, b.bindings, b.groups ++ e.standing⟩
      refine ⟨bound', ?_⟩
      rw [List.mapM_cons, List.flatMap_cons, ← List.append_assoc]
      exact run_bind_eq_ok.2 ⟨e, _, s, hrun, run_bind_eq_ok.2 ⟨rest, _, s, hruns, rfl⟩⟩

/-- Binding changes nothing where no accumulator is tied to a scope. -/
theorem bind_untied (stem : String) (hlive : ∀ scope, live scope = []) (h : e.Untied) (b : State) (s : Supply) :
    ∃ bound, ((bind stem live e).run b).run s = .ok ((e, ⟨bound, b.bindings, b.groups ++ e.standing⟩), s) := by
  induction e using Expr.induction_children generalizing b s with
  | step e ih =>
      obtain ⟨hc, hchildren⟩ := Expr.untied_iff.1 h
      have hchild : ∀ c ∈ e.children, ∀ b s, ∃ bound,
          ((bind stem live c).run b).run s = .ok ((c, ⟨bound, b.bindings, b.groups ++ c.standing⟩), s) :=
        fun c hmem b s => ih c hmem (hchildren c hmem) b s
      by_cases hg : e.kind = .group
      · obtain ⟨i, input, key, scope, outputs, rfl⟩ := Expr.exists_of_kind_eq_group hg
        obtain ⟨bound, hinput⟩ := hchild input List.mem_cons_self b s
        obtain ⟨bound', hkey⟩ := hchild key (List.mem_cons_of_mem _ List.mem_cons_self)
          ⟨bound, b.bindings, b.groups ++ input.standing⟩ s
        have hplan : GroupPlan.ofScope stem scope outputs (live scope) b.bindings =
            (⟨scope, outputs, 0⟩, b.bindings) := by
          rw [hlive]
          rfl
        have hkept : isKept input key input key outputs outputs = true := by
          simp [isKept, Expr.isNode]
        have hgroup := (bindGroup_run_eq_ok (b := ⟨bound', b.bindings, b.groups ++ input.standing ++ key.standing⟩)
          (s := s) (e := .group i input key scope outputs) hplan).2 ⟨rfl, (if_pos hkept).mpr ⟨rfl, rfl⟩⟩
        refine ⟨scope :: bound', ?_⟩
        rw [bind_group, Expr.standing_group, ← List.append_assoc, ← List.append_assoc]
        exact run_bind_eq_ok.2 ⟨input, _, s, hinput, run_bind_eq_ok.2 ⟨key, _, s, hkey, hgroup⟩⟩
      · -- a node that is bound by its children keeps all of them, and so is kept
        obtain ⟨bound, hchildren⟩ := mapM_standing hchild b s
        refine ⟨bound, ?_⟩
        rw [bind_kept _ _ hc hg, Expr.standing_of_kind_ne hg]
        exact run_bind_eq_ok.2 ⟨e.children, _, s, hchildren, run_build_eq_ok.2 ⟨update_children e s, rfl⟩⟩

end Binding

/-- A tree without accumulators that are tied to a scope is planned as it stands, unless a scope has two groups. -/
theorem plan_untied {e : Expr} (h : e.Untied) (hone : e.OneGroupEach) (stem : String) (s : Supply) :
    (plan stem e).run s = .ok (⟨e, e.standing⟩, s) := by
  obtain ⟨bound, hbind⟩ := Binding.bind_untied stem (CorrelationMap.accumulators_of_untied h) h {} s
  refine plan_eq_ok.2 ⟨CorrelationMap.firstDangling?_of_untied h, ?_, _, hbind, (List.nil_append _).symm⟩
  refine CorrelationMap.find?_shared_collect_eq_none fun scope => ?_
  rw [h.visible_eq_occurrences]
  exact hone scope

/-- Otherwise the plan is refused, with a scope that has two groups. -/
theorem plan_untied_refused {e : Expr} (h : e.Untied) (hone : ¬ e.OneGroupEach) (stem : String) (s : Supply) :
    ∃ scope, 1 < e.occurrences.countP (isGroupOf scope) ∧
      (plan stem e).run s = .error (.expression (.sharedScope scope (e.occurrences.countP (isGroupOf scope)))) := by
  have hdangling := CorrelationMap.firstDangling?_of_untied h
  cases hshared : (CorrelationMap.collect e).groupIds.find?
      (fun scope => 1 < (CorrelationMap.collect e).groupCount scope) with
  | none =>
      refine absurd (fun scope => ?_) hone
      rw [← CorrelationMap.groupCount_of_untied h]
      exact CorrelationMap.groupCount_le_one scope hshared
  | some scope =>
      have htwo := List.find?_some hshared
      rw [decide_eq_true_eq, CorrelationMap.groupCount_of_untied h] at htwo
      refine ⟨scope, htwo, ?_⟩
      simp only [plan, CorrelationMap.gather_eq, Build.ok_bind, hdangling, hshared]
      rw [CorrelationMap.groupCount_of_untied h]
      rfl

end Aggregation
