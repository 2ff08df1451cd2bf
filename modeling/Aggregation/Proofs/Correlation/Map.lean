import Aggregation.Proofs.Correlation.Walk
import Aggregation.Proofs.Record
import Mathlib.Data.List.Basic

/-!
The map of an expression against its visible occurrences: the accumulators of a scope are the visible correlated
accumulators with that scope, in order, scopes come in the order of their first accumulators, and the groups of a scope
are counted.
-/

namespace Aggregation

namespace Expr

/-- Whether a node is an accumulator that is tied to a scope. -/
def isTiedTo (scope : Scope) : Expr → Bool
  | .correlated _ s _ => s = scope
  | _ => false

/-- The scope that a node is tied to. -/
def tie? : Expr → Option Scope
  | .correlated _ scope _ => some scope
  | _ => none

/-- Whether a node is the group of a scope. -/
def isGroupOf (scope : Scope) : Expr → Bool
  | .group _ _ _ s _ => s = scope
  | _ => false

theorem tie?_eq_some_iff {scope : Scope} {e : Expr} : e.tie? = some scope ↔ isTiedTo scope e = true := by
  cases e with
  | correlated i s inner => exact Option.some_inj.trans decide_eq_true_iff.symm
  | constant | field | binary | unary | document | accumulator | source | filter | group | project | sort | skip
  | limit | extension => exact iff_of_false nofun Bool.false_ne_true

theorem exists_of_isTiedTo {scope : Scope} {e : Expr} (h : isTiedTo scope e = true) :
    ∃ i inner, e = .correlated i scope inner := by
  cases e with
  | correlated i s inner =>
      have hscope : s = scope := of_decide_eq_true h
      exact ⟨i, inner, by rw [hscope]⟩
  | constant | field | binary | unary | document | accumulator | source | filter | group | project | sort | skip
  | limit | extension => cases h

theorem kind_eq_group_of_isGroupOf {scope : Scope} {e : Expr} (h : isGroupOf scope e = true) : e.kind = .group := by
  cases e with
  | group => rfl
  | constant | field | binary | unary | document | accumulator | correlated | source | filter | project | sort | skip
  | limit | extension => cases h

theorem isGroupOf_eq_false {e : Expr} (hg : e.kind ≠ .group) (scope : Scope) : isGroupOf scope e = false :=
  Bool.eq_false_iff.2 fun h => hg (kind_eq_group_of_isGroupOf h)

end Expr

namespace CorrelationMap

open Aggregation.Expr (isTiedTo isGroupOf)

theorem lookup_addAccumulator (scope : Scope) (e : Expr) (scopes : List (Scope × List Expr)) (sc : Scope) :
    ((addAccumulator scope e scopes).lookup sc).getD []
      = (scopes.lookup sc).getD [] ++ if scope = sc then [e] else [] := by
  induction scopes with
  | nil =>
      by_cases h : scope = sc
      · rw [addAccumulator, if_pos h, h, List.lookup_cons, beq_self_eq_true]
        rfl
      · rw [addAccumulator, if_neg h, List.lookup_cons, beq_false_of_ne (Ne.symm h)]
        rfl
  | cons entry rest ih =>
      obtain ⟨s, es⟩ := entry
      by_cases hs : s = scope
      · rw [addAccumulator, if_pos hs, List.lookup_cons, List.lookup_cons]
        by_cases h : scope = sc
        · rw [hs, h, beq_self_eq_true, if_pos rfl]
          rfl
        · rw [hs, beq_false_of_ne (Ne.symm h), if_neg h, List.append_nil]
      · rw [addAccumulator, if_neg hs, List.lookup_cons, List.lookup_cons]
        by_cases h : sc = s
        · have hne : scope ≠ sc := fun heq => hs (h ▸ heq.symm)
          rw [h, beq_self_eq_true, if_neg (h ▸ hne), List.append_nil]
        · rw [beq_false_of_ne h]
          exact ih

/-- Scopes in ascending order, so none twice. -/
def Ascending (groups : List (Scope × Nat)) : Prop := groups.Pairwise fun g h => g.1.number < h.1.number

theorem mem_addGroup {scope : Scope} {groups : List (Scope × Nat)} {g : Scope × Nat}
    (h : g ∈ addGroup scope groups) : g.1 = scope ∨ ∃ n, (g.1, n) ∈ groups := by
  induction groups with
  | nil => exact .inl (by rw [List.mem_singleton.1 h])
  | cons entry rest ih =>
      obtain ⟨s, n⟩ := entry
      unfold addGroup at h
      split at h
      · next hs =>
          rcases List.mem_cons.1 h with rfl | h
          · exact .inl hs
          · exact .inr ⟨g.2, List.mem_cons_of_mem _ h⟩
      · split at h
        · rcases List.mem_cons.1 h with rfl | h
          · exact .inl rfl
          · exact .inr ⟨g.2, h⟩
        · rcases List.mem_cons.1 h with rfl | h
          · exact .inr ⟨n, List.mem_cons_self⟩
          · rcases ih h with hg | ⟨m, hm⟩
            · exact .inl hg
            · exact .inr ⟨m, List.mem_cons_of_mem _ hm⟩

theorem ascending_addGroup {scope : Scope} {groups : List (Scope × Nat)} (h : Ascending groups) :
    Ascending (addGroup scope groups) := by
  induction groups with
  | nil => exact List.pairwise_singleton _ _
  | cons entry rest ih =>
      obtain ⟨s, n⟩ := entry
      obtain ⟨hs, hrest⟩ := List.pairwise_cons.1 h
      unfold addGroup
      split
      · exact List.pairwise_cons.2 ⟨hs, hrest⟩
      · next hne =>
        split
        · next hlt =>
            refine List.pairwise_cons.2 ⟨List.forall_mem_cons.2 ⟨hlt, fun g hg => ?_⟩, h⟩
            exact Nat.lt_trans hlt (hs g hg)
        · next hle =>
            refine List.pairwise_cons.2 ⟨fun g hg => ?_, ih hrest⟩
            rcases mem_addGroup hg with heq | ⟨m, hm⟩
            · show s.number < g.1.number
              rw [heq]
              have hnum : s.number ≠ scope.number := fun hnum => hne (by cases s; cases scope; cases hnum; rfl)
              omega
            · exact hs (g.1, m) hm

/-- A scope below all others is not among them. -/
theorem lookup_eq_none_of_lt {groups : List (Scope × Nat)} {sc : Scope}
    (h : ∀ g ∈ groups, sc.number < g.1.number) : groups.lookup sc = none := by
  rw [List.lookup_eq_none_iff]
  intro g hg
  have hlt := h g hg
  exact bne_iff_ne.2 fun heq => Nat.ne_of_lt hlt (congrArg Scope.number heq)

theorem lookup_addGroup {scope : Scope} {groups : List (Scope × Nat)} (h : Ascending groups) (sc : Scope) :
    ((addGroup scope groups).lookup sc).getD 0 = (groups.lookup sc).getD 0 + if scope = sc then 1 else 0 := by
  induction groups with
  | nil =>
      by_cases hsc : scope = sc
      · rw [addGroup, if_pos hsc, hsc, List.lookup_cons, beq_self_eq_true]
        rfl
      · rw [addGroup, if_neg hsc, List.lookup_cons, beq_false_of_ne (Ne.symm hsc)]
        rfl
  | cons entry rest ih =>
      obtain ⟨s, n⟩ := entry
      obtain ⟨hs, hrest⟩ := List.pairwise_cons.1 h
      unfold addGroup
      by_cases heq : s = scope
      · rw [if_pos heq, List.lookup_cons, List.lookup_cons]
        by_cases hsc : scope = sc
        · rw [heq, hsc, beq_self_eq_true, if_pos rfl]
          rfl
        · rw [heq, beq_false_of_ne (Ne.symm hsc), if_neg hsc]
          rfl
      · rw [if_neg heq]
        by_cases hlt : scope.number < s.number
        · rw [if_pos hlt, List.lookup_cons]
          by_cases hsc : scope = sc
          · have hnone : List.lookup sc ((s, n) :: rest) = none := by
              refine lookup_eq_none_of_lt (List.forall_mem_cons.2 ⟨hsc ▸ hlt, fun g hg => ?_⟩)
              exact Nat.lt_trans (hsc ▸ hlt) (hs g hg)
            rw [hnone, hsc, beq_self_eq_true, if_pos rfl]
            rfl
          · rw [beq_false_of_ne (Ne.symm hsc), if_neg hsc, Nat.add_zero]
        · rw [if_neg hlt, List.lookup_cons, List.lookup_cons]
          by_cases hsc : sc = s
          · have hne : scope ≠ sc := fun h => heq (hsc ▸ h.symm)
            rw [hsc, beq_self_eq_true, if_neg (hsc ▸ hne), Nat.add_zero]
          · rw [beq_false_of_ne hsc]
            exact ih hrest

variable (m : CorrelationMap) (sc : Scope)

theorem accumulators_record (e : Expr) :
    (m.record e).accumulators sc = m.accumulators sc ++ [e].filter (isTiedTo sc) := by
  cases e with
  | correlated i scope inner =>
      show ((addAccumulator scope _ m.scopes).lookup sc).getD [] = _
      rw [lookup_addAccumulator]
      by_cases h : scope = sc
      · have htied : isTiedTo sc (.correlated i scope inner) = true := decide_eq_true h
        rw [if_pos h, List.filter_cons_of_pos htied, List.filter_nil]
        rfl
      · have htied : ¬isTiedTo sc (.correlated i scope inner) = true := fun htrue => h (of_decide_eq_true htrue)
        rw [if_neg h, List.filter_cons_of_neg htied, List.filter_nil]
        rfl
  | constant | field | binary | unary | document | accumulator | source | filter | group | project | sort | skip
  | limit | extension => exact (List.append_nil _).symm

theorem accumulators_foldl_record (nodes : List Expr) :
    (nodes.foldl record m).accumulators sc = m.accumulators sc ++ nodes.filter (isTiedTo sc) := by
  induction nodes generalizing m with
  | nil => exact (List.append_nil _).symm
  | cons e rest ih =>
      rw [List.foldl_cons, ih, accumulators_record, List.append_assoc, ← List.filter_append, List.singleton_append]

/-- The accumulators of a scope are the visible ones that are tied to it, in their order. -/
theorem accumulators_collect (root : Expr) :
    (collect root).accumulators sc = root.visible.filter (isTiedTo sc) := by
  rw [collect_eq_foldl, accumulators_foldl_record]
  rfl

theorem groupCount_record (h : Ascending m.groups) (e : Expr) :
    Ascending (m.record e).groups ∧
      (m.record e).groupCount sc = m.groupCount sc + [e].countP (isGroupOf sc) := by
  cases e with
  | group i input key scope outputs =>
      refine ⟨ascending_addGroup h, ?_⟩
      show ((addGroup scope m.groups).lookup sc).getD 0 = _
      rw [lookup_addGroup h]
      by_cases hsc : scope = sc
      · have hgroup : isGroupOf sc (.group i input key scope outputs) = true := decide_eq_true hsc
        rw [if_pos hsc, List.countP_cons_of_pos hgroup]
        rfl
      · have hgroup : ¬isGroupOf sc (.group i input key scope outputs) = true :=
          fun htrue => hsc (of_decide_eq_true htrue)
        rw [if_neg hsc, List.countP_cons_of_neg hgroup]
        rfl
  | constant | field | binary | unary | document | accumulator | correlated | source | filter | project | sort
  | skip | limit | extension => exact ⟨h, rfl⟩

theorem groupCount_foldl_record (h : Ascending m.groups) (nodes : List Expr) :
    (nodes.foldl record m).groupCount sc = m.groupCount sc + nodes.countP (isGroupOf sc) := by
  induction nodes generalizing m with
  | nil => rfl
  | cons e rest ih =>
      obtain ⟨hascending, hcount⟩ := groupCount_record m sc h e
      rw [List.foldl_cons, ih _ hascending, hcount, Nat.add_assoc, ← List.countP_append, List.singleton_append]

/-- The groups of a scope are the visible ones. -/
theorem groupCount_collect (root : Expr) :
    (collect root).groupCount sc = root.visible.countP (isGroupOf sc) := by
  rw [collect_eq_foldl, groupCount_foldl_record {} sc List.Pairwise.nil]
  exact Nat.zero_add _

/-- If no scope that has a group has more than one, no scope has. -/
theorem groupCount_le_one {m : CorrelationMap}
    (h : m.groupIds.find? (fun scope => 1 < m.groupCount scope) = none) : m.groupCount sc ≤ 1 := by
  cases hlookup : m.groups.lookup sc with
  | none =>
      rw [groupCount, hlookup]
      exact Nat.zero_le 1
  | some n =>
      have hmem : sc ∈ m.groupIds := by
        apply Classical.byContradiction
        intro hnot
        rw [List.lookup_eq_none_iff.2 fun g hg => bne_iff_ne.2 fun heq => hnot (List.mem_map.2 ⟨g, hg, heq.symm⟩)]
          at hlookup
        cases hlookup
      have hle := List.find?_eq_none.1 h sc hmem
      exact Nat.le_of_not_lt fun hlt => hle (decide_eq_true hlt)

/-- A scope comes last if it is new. -/
theorem map_fst_addAccumulator (scope : Scope) (e : Expr) (scopes : List (Scope × List Expr)) :
    (addAccumulator scope e scopes).map Prod.fst =
      if scope ∈ scopes.map Prod.fst then scopes.map Prod.fst else scopes.map Prod.fst ++ [scope] := by
  induction scopes with
  | nil => rfl
  | cons entry rest ih =>
      obtain ⟨s, es⟩ := entry
      unfold addAccumulator
      by_cases hs : s = scope
      · rw [if_pos hs, List.map_cons, List.map_cons, if_pos (by rw [hs]; exact List.mem_cons_self)]
      · rw [if_neg hs, List.map_cons, List.map_cons, ih]
        by_cases hold : scope ∈ rest.map Prod.fst
        · rw [if_pos hold, if_pos (List.mem_cons_of_mem _ hold)]
        · have hnew : scope ∉ s :: rest.map Prod.fst := fun h => (List.mem_cons.1 h).elim (Ne.symm hs) hold
          rw [if_neg hold, if_neg hnew, List.cons_append]

/-- Scopes come in the order of their first accumulators. -/
theorem ids_foldl_record (nodes : List Expr) :
    (nodes.foldl record {}).ids = (nodes.filterMap Expr.tie?).eraseDups := by
  induction nodes using List.reverseRecOn with
  | nil => rfl
  | append_singleton nodes e ih =>
      rw [List.foldl_append, List.foldl_cons, List.foldl_nil, List.filterMap_append]
      cases e with
      | correlated i scope inner =>
          have hold : scope ∈ nodes.filterMap Expr.tie? ↔ scope ∈ (nodes.foldl record {}).ids := by
            rw [ih, List.mem_eraseDups]
          have hids := map_fst_addAccumulator scope (.correlated i scope inner) (nodes.foldl record {}).scopes
          change ((nodes.foldl record {}).record (.correlated i scope inner)).ids =
            (nodes.filterMap Expr.tie? ++ [scope]).eraseDups
          rw [Record.eraseDups_concat, ← ih, if_congr hold rfl rfl]
          exact hids
      | constant | field | binary | unary | document | accumulator | source | filter | group | project | sort | skip
      | limit | extension =>
          change (nodes.foldl record {}).ids = (nodes.filterMap Expr.tie? ++ []).eraseDups
          rw [List.append_nil, ih]

theorem ids_collect (root : Expr) : (collect root).ids = (root.visible.filterMap Expr.tie?).eraseDups := by
  rw [collect_eq_foldl, ids_foldl_record]

/-- A scope is recorded for an accumulator that is tied to it. -/
theorem exists_of_mem_ids {root : Expr} (h : sc ∈ (collect root).ids) : ∃ e ∈ root.visible, isTiedTo sc e = true := by
  rw [ids_collect, List.mem_eraseDups] at h
  obtain ⟨e, he, htie⟩ := List.mem_filterMap.1 h
  exact ⟨e, he, Expr.tie?_eq_some_iff.1 htie⟩

/-- No accumulator is without a group if every one that is tied to a scope has a group of the scope. -/
theorem firstDangling?_collect_eq_none {root : Expr} (h : ∀ e ∈ root.visible, ∀ scope, isTiedTo scope e = true →
    0 < root.visible.countP (isGroupOf scope)) : (collect root).firstDangling? = none := by
  refine List.find?_eq_none.2 fun scope hmem hzero => ?_
  obtain ⟨e, he, htied⟩ := exists_of_mem_ids scope hmem
  have hpos := h e he scope htied
  rw [beq_iff_eq, groupCount_collect] at hzero
  omega

/-- No scope has two groups if none has more than one. -/
theorem find?_shared_collect_eq_none {root : Expr}
    (h : ∀ scope, root.visible.countP (isGroupOf scope) ≤ 1) :
    (collect root).groupIds.find? (fun scope => 1 < (collect root).groupCount scope) = none := by
  refine List.find?_eq_none.2 fun scope _ hlt => ?_
  have hle := h scope
  rw [decide_eq_true_eq, groupCount_collect] at hlt
  omega

end CorrelationMap

end Aggregation
