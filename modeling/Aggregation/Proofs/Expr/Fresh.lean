import Aggregation.Proofs.Expr.Building

/-!
Serials tell nodes apart. What is built after other nodes has serials that none of them has, so in a tree that is
built from the supply two occurrences with one serial are one node.
-/

namespace Aggregation

/-- Nodes with serials from `lo` up to `hi`, of which no two share a serial. -/
structure Fresh (lo hi : Nat) (nodes : List Expr) : Prop where
  bounds : ∀ e ∈ nodes, lo ≤ e.serial ∧ e.serial < hi
  eq_of_serial : ∀ d ∈ nodes, ∀ e ∈ nodes, d.serial = e.serial → d = e

namespace Fresh

variable {lo mid hi : Nat} {xs ys : List Expr} {e : Expr}

theorem nil : Fresh lo hi [] := ⟨nofun, nofun⟩

theorem append (hx : Fresh lo mid xs) (hy : Fresh mid hi ys) (hlo : lo ≤ mid) (hhi : mid ≤ hi) :
    Fresh lo hi (xs ++ ys) := by
  constructor
  · intro e he
    rcases List.mem_append.1 he with he | he
    · have := hx.bounds e he
      omega
    · have := hy.bounds e he
      omega
  · intro d hd e he heq
    rcases List.mem_append.1 hd with hd | hd <;> rcases List.mem_append.1 he with he | he
    · exact hx.eq_of_serial d hd e he heq
    · have hds := hx.bounds d hd
      have hes := hy.bounds e he
      omega
    · have hds := hy.bounds d hd
      have hes := hx.bounds e he
      omega
    · exact hy.eq_of_serial d hd e he heq

theorem cons (hx : Fresh lo hi xs) (he : e.serial = hi) (hlo : lo ≤ hi) : Fresh lo (hi + 1) (e :: xs) := by
  constructor
  · refine List.forall_mem_cons.2 ⟨by omega, fun d hd => ?_⟩
    have := hx.bounds d hd
    omega
  · intro c hc d hd heq
    rcases List.mem_cons.1 hc with hce | hcx <;> rcases List.mem_cons.1 hd with hde | hdx
    · rw [hce, hde]
    · have := hx.bounds d hdx
      rw [hce] at heq
      omega
    · have := hx.bounds c hcx
      rw [hde] at heq
      omega
    · exact hx.eq_of_serial c hcx d hdx heq

end Fresh

namespace Expr

theorem occurrences_eq (e : Expr) : e.occurrences = e :: e.children.flatMap occurrences := by
  rw [occurrences, List.flatMap_subtype (g := occurrences) (fun _ _ => rfl), List.unattach_attach]

theorem visible_eq (e : Expr) :
    e.visible = if e.kind = .correlated then [e] else e :: e.children.flatMap visible := by
  rw [visible, List.flatMap_subtype (g := visible) (fun _ _ => rfl), List.unattach_attach]

theorem mem_occurrences_self (e : Expr) : e ∈ e.occurrences := by
  rw [occurrences_eq]
  exact List.mem_cons_self

theorem mem_occurrences_of_child {c d e : Expr} (hc : c ∈ e.children) (hd : d ∈ c.occurrences) :
    d ∈ e.occurrences := by
  rw [occurrences_eq]
  exact List.mem_cons_of_mem _ (List.mem_flatMap.2 ⟨c, hc, hd⟩)

theorem mem_occurrences_of_visible (e : Expr) : ∀ d ∈ e.visible, d ∈ e.occurrences := by
  induction e using induction_children with
  | step e ih =>
      intro d hd
      rw [visible_eq] at hd
      split at hd
      · rw [List.mem_singleton.1 hd]
        exact mem_occurrences_self e
      · rcases List.mem_cons.1 hd with rfl | hd
        · exact mem_occurrences_self d
        · obtain ⟨c, hc, hd⟩ := List.mem_flatMap.1 hd
          exact mem_occurrences_of_child hc (ih c hc d hd)

theorem exists_of_kind_eq_correlated {e : Expr} (h : e.kind = .correlated) :
    ∃ i scope inner, e = .correlated i scope inner := by
  cases e with
  | correlated i scope inner => exact ⟨i, scope, inner, rfl⟩
  | constant | field | binary | unary | document | accumulator | source | filter | group | project | sort | skip
  | limit | extension => cases h

theorem exists_of_kind_eq_group {e : Expr} (h : e.kind = .group) :
    ∃ i input key scope outputs, e = .group i input key scope outputs := by
  cases e with
  | group i input key scope outputs => exact ⟨i, input, key, scope, outputs, rfl⟩
  | constant | field | binary | unary | document | accumulator | correlated | source | filter | project | sort | skip
  | limit | extension => cases h

theorem visible_correlated (i : NodeInfo) (scope : Scope) (inner : Expr) :
    visible (.correlated i scope inner) = [.correlated i scope inner] :=
  visible_eq _

/-- What is visible in a tree and is not its root is visible in a child. -/
theorem exists_child_of_mem_visible {d e : Expr} (h : d ∈ e.visible) (hk : e.kind ≠ .correlated) :
    d = e ∨ ∃ c ∈ e.children, d ∈ c.visible := by
  rw [visible_eq, if_neg hk] at h
  exact (List.mem_cons.1 h).imp_right List.mem_flatMap.1

/-- A tree that has been built from one supply up to another. -/
def Grown (s t : Supply) (e : Expr) : Prop :=
  s.nextNode ≤ t.nextNode ∧ Fresh s.nextNode t.nextNode e.occurrences

/-- Trees that have been built one after the other. -/
def AllGrown (s t : Supply) (es : List Expr) : Prop :=
  s.nextNode ≤ t.nextNode ∧ Fresh s.nextNode t.nextNode (es.flatMap occurrences)

variable {s t u : Supply} {e : Expr} {es : List Expr}

theorem AllGrown.nil : AllGrown s s [] := ⟨Nat.le_refl _, .nil⟩

theorem AllGrown.append {fs : List Expr} (hes : AllGrown s t es) (hfs : AllGrown t u fs) :
    AllGrown s u (es ++ fs) := by
  refine ⟨Nat.le_trans hes.1 hfs.1, ?_⟩
  rw [List.flatMap_append]
  exact hes.2.append hfs.2 hes.1 hfs.1

theorem AllGrown.singleton (h : Grown s t e) : AllGrown s t [e] := by
  refine ⟨h.1, ?_⟩
  rw [List.flatMap_cons, List.flatMap_nil, List.append_nil]
  exact h.2

theorem AllGrown.cons (he : Grown s t e) (hes : AllGrown t u es) : AllGrown s u (e :: es) :=
  (AllGrown.singleton he).append hes

/-- A node that is built after its children makes a tree with them. -/
theorem AllGrown.grown (hes : AllGrown s t es) (hchildren : e.children = es) (hm : Build.Minted t u e.info) :
    Grown s u e := by
  obtain ⟨hserial, rfl⟩ := hm
  refine ⟨Nat.le_succ_of_le hes.1, ?_⟩
  rw [occurrences_eq, hchildren]
  exact hes.2.cons hserial hes.1

end Expr

end Aggregation
