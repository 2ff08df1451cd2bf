import Aggregation.Proofs.Expr.Checked
import Aggregation.Proofs.Expr.Scalar

/-!
Trees in which fields have paths and documents have good names, as in all trees that obey their rules.
-/

namespace Aggregation.Expr

variable {e c : Expr}

/-- A field has a path, and a document has good names and no name twice. -/
def Named : Expr → Prop
  | .field _ path => Build.isPath path = true
  | .document _ fields => (∀ f ∈ fields, Build.isOutputName f.1 = true) ∧ (fields.map Prod.fst).Nodup
  | _ => True

/-- All nodes of a tree are named well. -/
def WellNamed (e : Expr) : Prop := ∀ d ∈ e.occurrences, d.Named

theorem WellNamed.named (h : e.WellNamed) : e.Named := h e (mem_occurrences_self e)

theorem WellNamed.child (h : e.WellNamed) (hc : c ∈ e.children) : c.WellNamed :=
  fun d hd => h d (mem_occurrences_of_child hc hd)

theorem wellNamed_of_children (hself : e.Named) (hchildren : ∀ c ∈ e.children, c.WellNamed) : e.WellNamed := by
  intro d hd
  rw [occurrences_eq] at hd
  rcases List.mem_cons.1 hd with rfl | hd
  · exact hself
  · obtain ⟨c, hc, hd⟩ := List.mem_flatMap.1 hd
    exact hchildren c hc d hd

theorem Scalar.wellNamed {tied : Scope → Prop} {ok : String → Prop} (h : Scalar tied ok e) : e.WellNamed := by
  induction h with
  | constant i v => exact wellNamed_of_children trivial (List.forall_mem_nil _)
  | field i hpath => exact wellNamed_of_children hpath (List.forall_mem_nil _)
  | binary i op _ _ ihleft ihright =>
      exact wellNamed_of_children trivial (List.forall_mem_cons.2 ⟨ihleft, List.forall_mem_singleton.2 ihright⟩)
  | unary i op _ ih => exact wellNamed_of_children trivial (List.forall_mem_singleton.2 ih)
  | document i hdistinct hnames _ ih => exact wellNamed_of_children ⟨hnames, hdistinct⟩ (List.forall_mem_map.2 ih)
  | count i j =>
      exact wellNamed_of_children trivial
        (List.forall_mem_singleton.2 (wellNamed_of_children trivial (List.forall_mem_nil _)))
  | accumulator i j _ _ _ ih =>
      exact wellNamed_of_children trivial
        (List.forall_mem_singleton.2 (wellNamed_of_children trivial (List.forall_mem_singleton.2 ih)))
  | extension i name _ ih => exact wellNamed_of_children trivial ih

theorem Checked.named (h : e.Checked) : e.Named := by
  cases e with
  | field => exact h
  | document i fields => exact ⟨fun f hf => (h.1 f hf).1, h.2.1⟩
  | constant | binary | unary | accumulator | correlated | source | filter | group | project | sort | skip | limit
  | extension => trivial

theorem WellFormed.wellNamed (h : e.WellFormed) : e.WellNamed := fun d hd => (h d hd).named

end Aggregation.Expr
