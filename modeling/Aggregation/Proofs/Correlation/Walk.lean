import Aggregation.Correlation.Map
import Aggregation.Proofs.Expr.Fresh

/-!
The walk that makes the map of an expression. It takes every kind of node in turn, and comes to the visible nodes in
their order, each recorded once for every time that it occurs.
-/

namespace Aggregation.CorrelationMap

open Aggregation.Expr (visible)

variable {e : Expr} {es fs : List Expr} {v w : Walk}

/-- A walk ends well, and records what is visible in some nodes. -/
def Records (es : List Expr) (w : Walk) : Prop := ∀ m, w.run m = .ok ((), (es.flatMap visible).foldl record m)

theorem records_nothing : Records [] (return) := fun _ => rfl

theorem Records.append (hv : Records es v) (hw : Records fs w) : Records (es ++ fs) (do v; w) := by
  intro m
  calc (v >>= fun _ => w).run m
    _ = (v.run m >>= fun p => w.run p.2) := rfl
    _ = w.run ((es.flatMap visible).foldl record m) := by rw [hv m]; rfl
    _ = _ := by rw [hw, List.flatMap_append, List.foldl_append]

theorem records_entries {entries : List (String × Expr)} (h : ∀ c ∈ entries.map Prod.snd, Records [c] (visit c)) :
    Records (entries.map Prod.snd) (visitEntries entries) := by
  induction entries with
  | nil => exact records_nothing
  | cons entry rest ih =>
      obtain ⟨hfirst, hrest⟩ := List.forall_mem_cons.1 h
      exact hfirst.append (ih hrest)

theorem records_args (h : ∀ c ∈ es, Records [c] (visit c)) : Records es (visitArgs es) := by
  induction es with
  | nil => exact records_nothing
  | cons e rest ih =>
      obtain ⟨hfirst, hrest⟩ := List.forall_mem_cons.1 h
      exact hfirst.append (ih hrest)

/-- A node is visited by recording it and going on to its children, unless it is a correlated accumulator. -/
theorem records_node (hk : e.kind ≠ .correlated) (hw : Records e.children w)
    (hvisit : ∀ m, (visit e).run m = w.run (m.record e)) : Records [e] (visit e) := by
  intro m
  rw [hvisit, hw, List.flatMap_singleton, Expr.visible_eq, if_neg hk, List.foldl_cons]

/-- Visiting a node records what is visible in it. Each kind of node is a case of its own, because each kind visits its
children in its own way. -/
theorem records_visit (e : Expr) : Records [e] (visit e) := by
  induction e using Expr.induction_children with
  | step e h =>
      by_cases hk : e.kind = .correlated
      · obtain ⟨i, scope, inner, rfl⟩ := Expr.exists_of_kind_eq_correlated hk
        intro m
        rw [List.flatMap_singleton, Expr.visible_eq, if_pos hk]
        rfl
      · cases e with
        | constant | field | source => exact records_node hk records_nothing fun _ => rfl
        | binary _ _ left right =>
            have hleft := h left List.mem_cons_self
            have hright := h right (List.mem_cons_of_mem _ List.mem_cons_self)
            exact records_node hk (hleft.append hright) fun _ => rfl
        | filter _ input scalar | project _ input scalar =>
            have hinput := h input List.mem_cons_self
            have hscalar := h scalar (List.mem_cons_of_mem _ List.mem_cons_self)
            exact records_node hk (hinput.append hscalar) fun _ => rfl
        | unary _ _ c | sort _ c | skip _ c | limit _ c =>
            exact records_node hk (h c List.mem_cons_self) fun _ => rfl
        | document => exact records_node hk (records_entries h) fun _ => rfl
        | accumulator _ _ operand =>
            cases operand with
            | none => exact records_node hk records_nothing fun _ => rfl
            | some c => exact records_node hk (h c List.mem_cons_self) fun _ => rfl
        | correlated => exact absurd rfl hk
        | group _ input key _ outputs =>
            have hinput := h input List.mem_cons_self
            have hkey := h key (List.mem_cons_of_mem _ List.mem_cons_self)
            have houtputs : Records (outputs.map Prod.snd) (visitEntries outputs) :=
              records_entries fun c hc => h c (List.mem_cons_of_mem _ (List.mem_cons_of_mem _ hc))
            exact records_node hk (hinput.append (hkey.append houtputs)) fun _ => rfl
        | extension => exact records_node hk (records_args h) fun _ => rfl

theorem gather_eq_foldl (root : Expr) : gather root = .ok (root.visible.foldl record {}) := by
  have hvisit := records_visit root {}
  rw [List.flatMap_singleton] at hvisit
  rw [gather, hvisit]
  rfl

/-- The map is what recording the visible nodes in their order comes to. -/
theorem collect_eq_foldl (root : Expr) : collect root = root.visible.foldl record {} := by
  rw [collect, gather_eq_foldl]

/-- The walk succeeds on every expression. -/
theorem gather_eq (root : Expr) : gather root = .ok (collect root) := by rw [gather_eq_foldl, collect_eq_foldl]

end Aggregation.CorrelationMap
