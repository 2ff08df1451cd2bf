import Aggregation.Proofs.Plan.Idempotence

/-!
The map of an expression against the generic traversal, which takes a node before its children and those in their
order. The walk does not enter an accumulator that is tied to a scope. It misses no other accumulator for that, since
none is tied in the operand of another, but it does miss the groups that a host has put there.
-/

namespace Aggregation

open Aggregation.Expr (isGroupOf isTiedTo isTied descendants)

namespace Expr

variable {e : Expr}

theorem tie?_eq_none (h : e.kind ≠ .correlated) : e.tie? = none := by
  cases e with
  | correlated => exact absurd rfl h
  | constant | field | binary | unary | document | accumulator | source | filter | group | project | sort | skip
  | limit | extension => rfl

theorem isTiedTo_eq_false (scope : Scope) (h : e.kind ≠ .correlated) : isTiedTo scope e = false := by
  refine Bool.eq_false_iff.2 fun htied => ?_
  rw [← tie?_eq_some_iff, tie?_eq_none h] at htied
  cases htied

/-- What is taken of accumulators that are tied to a scope only is all in sight. -/
theorem filterMap_visible_eq {α : Type} {f : Expr → Option α} (hw : e.WellFormed)
    (hf : ∀ d : Expr, d.kind ≠ .correlated → f d = none) : e.visible.filterMap f = e.occurrences.filterMap f := by
  induction e using induction_children with
  | step e ih =>
      rw [visible_eq, occurrences_eq]
      by_cases hk : e.kind = .correlated
      · have hbelow : (e.children.flatMap occurrences).filterMap f = [] := by
          refine List.filterMap_eq_nil_iff.2 fun d hd => ?_
          obtain ⟨c, hc, hd⟩ := List.mem_flatMap.1 hd
          have hkind := kind_child_correlated hw.checked hk hc
          exact hf d (kind_ne_correlated_of_accumulator (hw.child hc).checked hkind hd)
        have hsplit : e :: e.children.flatMap occurrences = [e] ++ e.children.flatMap occurrences := rfl
        rw [if_pos hk, hsplit, List.filterMap_append, hbelow, List.append_nil]
      · rw [if_neg hk, List.filterMap_cons_none (hf e hk), List.filterMap_cons_none (hf e hk), List.filterMap_flatMap,
          List.filterMap_flatMap]
        exact List.flatMap_congr fun c hc => ih c hc (hw.child hc)

theorem filter_visible_eq {p : Expr → Bool} (hw : e.WellFormed) (hp : ∀ d : Expr, d.kind ≠ .correlated → p d = false) :
    e.visible.filter p = e.occurrences.filter p := by
  rw [← List.filterMap_eq_filter]
  refine filterMap_visible_eq hw fun d hd => ?_
  rw [Option.guard_eq_none_iff]
  exact hp d hd

end Expr

namespace CorrelationMap

variable {s : Supply} {held : List Expr} {root : Expr}

/-- The walk succeeds on every tree of a caller, and agrees with the generic traversal on the accumulators of a scope
and on the order of scopes. It counts the groups of a scope that do not stand below an accumulator that is tied to a
scope, so it agrees on the groups as well if and only if none stands there. In a tree without nodes of a host none
does. -/
theorem gathered_in_order (hheld : Build.Held s held) (hroot : root ∈ held) :
    ∃ m, gather root = .ok m ∧
      (∀ scope, m.accumulators scope = root.occurrences.filter (isTiedTo scope)) ∧
      m.ids = (root.occurrences.filterMap Expr.tie?).eraseDups ∧
      (∀ scope, root.occurrences.countP (isGroupOf scope) = m.groupCount scope +
        ((root.occurrences.filter isTied).flatMap descendants).countP (isGroupOf scope)) ∧
      (∀ scope, m.groupCount scope = root.occurrences.countP (isGroupOf scope) ↔
        ∀ e ∈ root.occurrences, e.isTied = true → ∀ d ∈ e.descendants, isGroupOf scope d = false) ∧
      (root.Native → ∀ scope, m.groupCount scope = root.occurrences.countP (isGroupOf scope)) := by
  have hw := hheld.wellFormed hroot
  have hcount (scope : Scope) : root.occurrences.countP (isGroupOf scope) = (collect root).groupCount scope +
      ((root.occurrences.filter isTied).flatMap descendants).countP (isGroupOf scope) := by
    have hties : root.visible.filter isTied = root.occurrences.filter isTied :=
      Expr.filter_visible_eq hw fun _ hd => decide_eq_false hd
    rw [root.countP_occurrences_eq, groupCount_collect, hties]
  refine ⟨collect root, gather_eq root, fun scope => ?_, ?_, hcount, fun scope => ?_, fun hnative scope => ?_⟩
  · rw [accumulators_collect]
    exact Expr.filter_visible_eq hw fun _ hd => Expr.isTiedTo_eq_false scope hd
  · rw [ids_collect, Expr.filterMap_visible_eq hw fun _ hd => Expr.tie?_eq_none hd]
  · have hzero : (collect root).groupCount scope = root.occurrences.countP (isGroupOf scope) ↔
        ((root.occurrences.filter isTied).flatMap descendants).countP (isGroupOf scope) = 0 := by
      rw [hcount scope, left_eq_add]
    rw [hzero, List.countP_eq_zero]
    simp only [List.mem_flatMap, List.mem_filter, forall_exists_index, and_imp, Bool.not_eq_true]
    exact ⟨fun h e he htied d hd => h d e he htied hd, fun h d e he htied hd => h e he htied d hd⟩
  · rw [groupCount_collect]
    exact Expr.countP_visible_eq hw hnative scope

/-- Three accumulators of one group. -/
theorem gathered_in_order_repeatedCounts : ∃ root s held m, repeatedCounts.build.run {} = .ok (root, s) ∧
    Build.Held s held ∧ root ∈ held ∧ gather root = .ok m ∧ (m.accumulators ⟨1⟩).length = 3 ∧ m.ids = [⟨1⟩] ∧
    m.groupCount ⟨1⟩ = 1 := by
  obtain ⟨root, s, _, _, hbuild, -, hcheck⟩ := exists_plan_of_run (x := repeatedCounts.build)
    (p := fun root _ => root.occurrences.all (fun e => !e.isExtension) &&
      decide ((root.occurrences.filter (isTiedTo ⟨1⟩)).length = 3 ∧
        (root.occurrences.filterMap Expr.tie?).eraseDups = [⟨1⟩] ∧
        root.occurrences.countP (isGroupOf ⟨1⟩) = 1)) (by decide +kernel)
  obtain ⟨hnative, hcounts⟩ := (Bool.and_eq_true _ _).mp hcheck
  obtain ⟨hthree, hids, hone⟩ := of_decide_eq_true hcounts
  obtain ⟨held, hheld, hroot⟩ := Query.exists_held_of_build hbuild
  have hnative : root.Native := fun e he => by simpa using List.all_eq_true.1 hnative e he
  obtain ⟨m, hm, haccumulators, hscopes, -, -, hgroups⟩ := gathered_in_order hheld hroot
  refine ⟨root, s, held, m, hbuild, hheld, hroot, hm, ?_, ?_, ?_⟩
  · rw [haccumulators, hthree]
  · rw [hscopes, hids]
  · rw [hgroups hnative, hone]

/-- A group in the operand of an accumulator that is tied to a scope is not counted. -/
theorem gathered_in_order_firstOfGroups_ne : ∃ root s held m, firstOfGroups.run {} = .ok (root, s) ∧
    Build.Held s held ∧ root ∈ held ∧ gather root = .ok m ∧ m.groupCount ⟨1⟩ = 1 ∧
    root.occurrences.countP (isGroupOf ⟨1⟩) = 2 := by
  obtain ⟨root, s, _, _, hbuild, -, hcheck⟩ := exists_plan_of_run (x := firstOfGroups)
    (p := fun root _ => decide ((collect root).groupCount ⟨1⟩ = 1 ∧ root.occurrences.countP (isGroupOf ⟨1⟩) = 2))
    (by decide +kernel)
  obtain ⟨held, hheld, hroot⟩ := exists_held_firstOfGroups hbuild
  obtain ⟨hone, htwo⟩ := of_decide_eq_true hcheck
  exact ⟨root, s, held, collect root, hbuild, hheld, hroot, gather_eq root, hone, htwo⟩

end CorrelationMap

end Aggregation
