import Aggregation.Proofs.Correlation.Map
import Aggregation.Proofs.Expr.Checked

/-!
Where nodes stand in a tree. In a tree without nodes of a host that obeys its rules, pipelines read from pipelines only
and all else is scalars, and no accumulator stands in another one.
-/

namespace Aggregation.Expr

variable {e c d inner : Expr} {scope : Scope}

/-- The pipelines that a pipeline is made of: itself, the one that it reads from, and so on. -/
def chain : Expr → List Expr
  | .source i collection => [.source i collection]
  | .filter i input predicate => .filter i input predicate :: chain input
  | .group i input key scope outputs => .group i input key scope outputs :: chain input
  | .project i input projection => .project i input projection :: chain input
  | .sort i input keys => .sort i input keys :: chain input
  | .skip i input count => .skip i input count :: chain input
  | .limit i input count => .limit i input count :: chain input
  | _ => []

/-- The outputs of a group. -/
def outputs : Expr → List (String × Expr)
  | .group _ _ _ _ outputs => outputs
  | _ => []

/-- The node at a path, which tells the number of a child at each level. -/
def at? : Expr → List Nat → Option Expr
  | e, [] => some e
  | e, k :: path => e.children[k]?.bind (·.at? path)

/-- No node of the tree belongs to a host. -/
def Native (e : Expr) : Prop := ∀ d ∈ e.occurrences, d.isExtension = false

theorem native_iff : e.Native ↔ e.isExtension = false ∧ ∀ c ∈ e.children, c.Native := by
  simp only [Native, occurrences_eq e, List.forall_mem_cons, List.mem_flatMap, forall_exists_index, and_imp]
  exact and_congr_right fun _ => ⟨fun h c hc d hd => h d c hc hd, fun h d c hc hd => h c hc d hd⟩

theorem Native.child (h : e.Native) (hc : c ∈ e.children) : c.Native := (native_iff.1 h).2 c hc

theorem exists_at?_of_mem_occurrences (h : d ∈ e.occurrences) : ∃ path, e.at? path = some d := by
  induction e using induction_children with
  | step e ih =>
      rw [occurrences_eq] at h
      rcases List.mem_cons.1 h with rfl | h
      · exact ⟨[], rfl⟩
      · obtain ⟨c, hc, hd⟩ := List.mem_flatMap.1 h
        obtain ⟨path, hpath⟩ := ih c hc hd
        obtain ⟨k, hk⟩ := List.mem_iff_getElem?.1 hc
        exact ⟨k :: path, by rw [at?, hk]; exact hpath⟩

theorem mem_occurrences_of_at? {path : List Nat} (h : e.at? path = some d) : d ∈ e.occurrences := by
  induction path generalizing e with
  | nil =>
      cases h
      exact mem_occurrences_self _
  | cons k path ih =>
      obtain ⟨c, hc, hd⟩ := Option.bind_eq_some_iff.1 h
      exact mem_occurrences_of_child (List.mem_of_getElem? hc) (ih hd)

theorem mem_occurrences_of_mem_chain (h : d ∈ e.chain) : d ∈ e.occurrences := by
  have hstep {e input : Expr} (hinput : input ∈ e.children) (ih : d ∈ input.chain → d ∈ input.occurrences)
      (hd : d ∈ e :: input.chain) : d ∈ e.occurrences := by
    rcases List.mem_cons.1 hd with rfl | hd
    · exact mem_occurrences_self d
    · exact mem_occurrences_of_child hinput (ih hd)
  induction e using chain.induct with
  | case1 i collection =>
      rw [List.mem_singleton.1 h]
      exact mem_occurrences_self _
  | case2 i input predicate ih => exact hstep List.mem_cons_self ih h
  | case3 i input key scope outputs ih => exact hstep List.mem_cons_self ih h
  | case4 i input projection ih => exact hstep List.mem_cons_self ih h
  | case5 i input keys ih => exact hstep List.mem_cons_self ih h
  | case6 i input count ih => exact hstep List.mem_cons_self ih h
  | case7 i input count ih => exact hstep List.mem_cons_self ih h
  | case8 e => simp [chain] at h

theorem mem_occurrences_trans (hc : c ∈ e.occurrences) (hd : d ∈ c.occurrences) : d ∈ e.occurrences := by
  induction e using induction_children with
  | step e ih =>
      rw [occurrences_eq] at hc
      rcases List.mem_cons.1 hc with rfl | hc
      · exact hd
      · obtain ⟨b, hb, hc⟩ := List.mem_flatMap.1 hc
        exact mem_occurrences_of_child hb (ih b hb hc)

section Scalars

/-- The children of a scalar are scalars. -/
theorem isPipeline_child_eq_false (h : e.Checked) (hext : e.isExtension = false) (hscalar : e.isPipeline = false)
    (hc : c ∈ e.children) : c.isPipeline = false := by
  cases e with
  | constant | field | source => exact absurd hc List.not_mem_nil
  | binary =>
      rcases List.mem_pair.1 hc with rfl | rfl
      · exact h.1
      · exact h.2.1
  | unary =>
      rw [List.mem_singleton.1 hc]
      exact h.1
  | document =>
      obtain ⟨f, hf, rfl⟩ := List.mem_map.1 hc
      exact (h.1 f hf).2
  | accumulator => exact (h.1 c (Option.mem_toList.1 hc)).1
  | correlated =>
      rw [List.mem_singleton.1 hc, isPipeline, h.1]
      rfl
  | filter | group | project | sort | skip | limit => cases hscalar
  | extension => cases hext

theorem isPipeline_eq_false_of_mem (hw : e.WellFormed) (hn : e.Native) (hscalar : e.isPipeline = false)
    (hd : d ∈ e.occurrences) : d.isPipeline = false := by
  induction e using induction_children with
  | step e ih =>
      rw [occurrences_eq] at hd
      rcases List.mem_cons.1 hd with rfl | hd
      · exact hscalar
      · obtain ⟨c, hc, hd⟩ := List.mem_flatMap.1 hd
        exact ih c hc (hw.child hc) (hn.child hc)
          (isPipeline_child_eq_false hw.checked (native_iff.1 hn).1 hscalar hc) hd

theorem isPipeline_of_isGroupOf (h : e.isGroupOf scope = true) : e.isPipeline = true := by
  cases e with
  | group => rfl
  | constant | field | binary | unary | document | accumulator | correlated | source | filter | project | sort | skip
  | limit | extension => cases h

theorem countP_isGroupOf_eq_zero (hw : e.WellFormed) (hn : e.Native) (hscalar : e.isPipeline = false) :
    e.occurrences.countP (isGroupOf scope) = 0 := by
  refine List.countP_eq_zero.2 fun d hd hgroup => ?_
  have hpipeline := isPipeline_of_isGroupOf hgroup
  rw [isPipeline_eq_false_of_mem hw hn hscalar hd] at hpipeline
  cases hpipeline

end Scalars

section Accumulators

theorem containsAccumulator_eq_false_iff :
    e.containsAccumulator = false ↔ ∀ d ∈ e.occurrences, d.isAccumulator = false := by
  rw [containsAccumulator, List.any_eq_false]
  exact forall₂_congr fun d _ => Bool.eq_false_iff.symm

theorem containsAccumulator_eq_false_iff_children :
    e.containsAccumulator = false ↔ e.isAccumulator = false ∧ ∀ c ∈ e.children, c.containsAccumulator = false := by
  simp only [containsAccumulator_eq_false_iff, occurrences_eq e, List.forall_mem_cons, List.mem_flatMap,
    forall_exists_index, and_imp]
  exact and_congr_right fun _ => ⟨fun h c hc d hd => h d c hc hd, fun h d c hc hd => h c hc d hd⟩

theorem isAccumulator_eq_false_iff : e.isAccumulator = false ↔ e.kind ≠ .accumulator ∧ e.kind ≠ .correlated := by
  simp [isAccumulator]

/-- No accumulator stands below an accumulator, other than the one that a scope is tied to. -/
theorem isAccumulator_eq_false_of_accumulator (h : e.Checked) (hkind : e.kind = .accumulator)
    (hc : c ∈ e.children) (hd : d ∈ c.occurrences) : d.isAccumulator = false := by
  cases e with
  | accumulator i op operand => exact containsAccumulator_eq_false_iff.1 (h.1 c (Option.mem_toList.1 hc)).2 d hd
  | constant | field | binary | unary | document | correlated | source | filter | group | project | sort | skip
  | limit | extension => cases hkind

/-- No accumulator that is tied to a scope stands in an accumulator. -/
theorem kind_ne_correlated_of_accumulator (h : e.Checked) (hkind : e.kind = .accumulator) (hd : d ∈ e.occurrences) :
    d.kind ≠ .correlated := by
  rw [occurrences_eq] at hd
  rcases List.mem_cons.1 hd with rfl | hd
  · rw [hkind]
    decide
  · obtain ⟨c, hc, hd⟩ := List.mem_flatMap.1 hd
    exact (isAccumulator_eq_false_iff.1 (isAccumulator_eq_false_of_accumulator h hkind hc hd)).2

/-- Below an accumulator that is tied to a scope, only the one that is tied is an accumulator. -/
theorem eq_of_mem_correlated (hw : e.WellFormed) (hkind : e.kind = .correlated) (hc : c ∈ e.children)
    (hd : d ∈ c.occurrences) : d = c ∨ d.isAccumulator = false := by
  rw [occurrences_eq] at hd
  refine (List.mem_cons.1 hd).imp_right fun hd => ?_
  obtain ⟨b, hb, hd⟩ := List.mem_flatMap.1 hd
  obtain ⟨i, scope, inner, rfl⟩ := exists_of_kind_eq_correlated hkind
  cases List.mem_singleton.1 hc
  exact isAccumulator_eq_false_of_accumulator (hw.child List.mem_cons_self).checked hw.checked.1 hb hd

theorem kind_child_correlated (h : e.Checked) (hkind : e.kind = .correlated) (hc : c ∈ e.children) :
    c.kind = .accumulator := by
  obtain ⟨i, scope, inner, rfl⟩ := exists_of_kind_eq_correlated hkind
  rw [List.mem_singleton.1 hc]
  exact h.1

/-- No accumulator that is tied to a scope is hidden in another one. -/
theorem mem_visible_of_kind_eq_correlated (hw : e.WellFormed) (hd : d ∈ e.occurrences) (hkind : d.kind = .correlated) :
    d ∈ e.visible := by
  induction e using induction_children with
  | step e ih =>
      rw [occurrences_eq] at hd
      rw [visible_eq]
      by_cases hk : e.kind = .correlated
      · rw [if_pos hk]
        rcases List.mem_cons.1 hd with rfl | hd
        · exact List.mem_cons_self
        · obtain ⟨c, hc, hd⟩ := List.mem_flatMap.1 hd
          rcases eq_of_mem_correlated hw hk hc hd with rfl | hacc
          · rw [kind_child_correlated hw.checked hk hc] at hkind
            cases hkind
          · exact absurd hkind (isAccumulator_eq_false_iff.1 hacc).2
      · rw [if_neg hk]
        rcases List.mem_cons.1 hd with rfl | hd
        · exact List.mem_cons_self
        · obtain ⟨c, hc, hd⟩ := List.mem_flatMap.1 hd
          exact List.mem_cons_of_mem _ (List.mem_flatMap.2 ⟨c, hc, ih c hc (hw.child hc) hd⟩)

/-- No group is hidden in an accumulator. -/
theorem countP_visible_eq (hw : e.WellFormed) (hn : e.Native) (scope : Scope) :
    e.visible.countP (isGroupOf scope) = e.occurrences.countP (isGroupOf scope) := by
  induction e using induction_children with
  | step e ih =>
      rw [visible_eq, occurrences_eq]
      by_cases hk : e.kind = .correlated
      · obtain ⟨i, s, inner, rfl⟩ := exists_of_kind_eq_correlated hk
        have hscalar : inner.isPipeline = false :=
          isPipeline_child_eq_false hw.checked rfl rfl List.mem_cons_self
        have hzero : inner.occurrences.countP (isGroupOf scope) = 0 :=
          countP_isGroupOf_eq_zero (hw.child List.mem_cons_self) (hn.child List.mem_cons_self) hscalar
        rw [if_pos hk]
        show _ = List.countP _ (_ :: [inner].flatMap occurrences)
        rw [List.countP_cons, List.countP_cons, List.flatMap_singleton, hzero]
        rfl
      · rw [if_neg hk, List.countP_cons, List.countP_cons, List.countP_flatMap, List.countP_flatMap]
        congr 2
        exact List.map_congr_left fun c hc => ih c hc (hw.child hc) (hn.child hc)

end Accumulators

section Anchors

variable {path : List Nat} {input : Expr}

/-- A path leads through the predicate or the projection of a pipeline that reads from the group of a scope. -/
def AnchoredAt (e : Expr) (path : List Nat) (scope : Scope) : Prop :=
  ∃ before after d, path = before ++ 1 :: after ∧ e.at? before = some d ∧ (d.kind = .filter ∨ d.kind = .project) ∧
    d.chain.any (isGroupOf scope) = true

/-- Every accumulator that is tied to a scope sits in the predicate or the projection of a pipeline that reads from the
group of the scope. -/
def Anchored (e : Expr) : Prop :=
  ∀ path i scope inner, e.at? path = some (.correlated i scope inner) → e.AnchoredAt path scope

theorem AnchoredAt.cons {k : Nat} (hc : e.children[k]? = some c) (h : c.AnchoredAt path scope) :
    e.AnchoredAt (k :: path) scope := by
  obtain ⟨before, after, d, rfl, hat, hd⟩ := h
  exact ⟨k :: before, after, d, rfl, by rw [at?, hc]; exact hat, hd⟩

/-- The pipeline that a pipeline reads from is no predicate and no projection. -/
theorem Anchored.reads (h : e.Anchored) (hc : e.children[0]? = some input) : input.Anchored := by
  intro path i scope inner hat
  obtain ⟨before, after, d, hpath, hbefore, hd⟩ := h (0 :: path) i scope inner (by rw [at?, hc]; exact hat)
  cases before with
  | nil => cases hpath
  | cons k before =>
      cases hpath
      rw [at?, hc] at hbefore
      exact ⟨before, after, d, rfl, hbefore, hd⟩

/-- An accumulator in a predicate or a projection is tied to a group that comes before. -/
theorem Anchored.scalar (h : e.Anchored) (hc : e.children[1]? = some c) (hw : c.WellFormed) (hn : c.Native)
    (hscalar : c.isPipeline = false) {i : NodeInfo} (hmem : Expr.correlated i scope inner ∈ c.occurrences) :
    e.chain.any (isGroupOf scope) = true := by
  obtain ⟨path, hat⟩ := exists_at?_of_mem_occurrences hmem
  obtain ⟨before, after, d, hpath, hbefore, hkind, hchain⟩ := h (1 :: path) i scope inner (by rw [at?, hc]; exact hat)
  cases before with
  | nil =>
      cases hbefore
      exact hchain
  | cons k before =>
      cases hpath
      rw [at?, hc] at hbefore
      have hd := isPipeline_eq_false_of_mem hw hn hscalar (mem_occurrences_of_at? hbefore)
      rcases hkind with hkind | hkind <;> rw [isPipeline, hkind] at hd <;> cases hd

/-- A node over anchored pipelines is anchored, if what it reads from their documents is tied to groups before it. -/
theorem anchored_of_children (hkind : e.kind ≠ .correlated)
    (hfirst : ∀ input, e.children[0]? = some input → input.Anchored)
    (hrest : ∀ k c, e.children[k + 1]? = some c → ∀ i scope inner, correlated i scope inner ∈ c.occurrences →
      k = 0 ∧ (e.kind = .filter ∨ e.kind = .project) ∧ e.chain.any (isGroupOf scope) = true) : e.Anchored := by
  intro path i scope inner hat
  rcases path with _ | ⟨_ | k, path⟩
  · cases hat
    exact absurd rfl hkind
  · obtain ⟨input, hinput, hat⟩ := Option.bind_eq_some_iff.1 hat
    exact (hfirst input hinput path i scope inner hat).cons hinput
  · obtain ⟨c, hc, hat⟩ := Option.bind_eq_some_iff.1 hat
    obtain ⟨rfl, hread, hchain⟩ := hrest k c hc i scope inner (mem_occurrences_of_at? hat)
    exact ⟨[], path, e, rfl, rfl, hread, hchain⟩

end Anchors

section Places

/-- Below a node accumulators stand only below one that is tied to a scope, or as outputs of groups. -/
def Tidy (e : Expr) : Prop :=
  ∀ d ∈ e.occurrences, ∀ k c, d.children[k]? = some c → c.kind = .accumulator →
    d.kind = .correlated ∨ d.kind = .group ∧ 2 ≤ k

/-- Accumulators stand only below one that is tied to a scope, or as outputs of groups. -/
def Placed (e : Expr) : Prop := e.kind ≠ .accumulator ∧ e.Tidy

theorem tidy_iff : e.Tidy ↔ (∀ k c, e.children[k]? = some c → c.kind = .accumulator →
    e.kind = .correlated ∨ e.kind = .group ∧ 2 ≤ k) ∧ ∀ c ∈ e.children, c.Tidy := by
  simp only [Tidy, occurrences_eq e, List.forall_mem_cons, List.mem_flatMap, forall_exists_index, and_imp]
  exact and_congr_right fun _ => ⟨fun h c hc d hd => h d c hc hd, fun h d c hc hd => h c hc d hd⟩

theorem tidy_iff_placed (hc : e.kind ≠ .correlated) (hg : e.kind ≠ .group) : e.Tidy ↔ ∀ c ∈ e.children, c.Placed := by
  rw [tidy_iff]
  constructor
  · rintro ⟨hself, hbelow⟩ c hmem
    refine ⟨fun hkind => ?_, hbelow c hmem⟩
    obtain ⟨k, hk⟩ := List.mem_iff_getElem?.1 hmem
    rcases hself k c hk hkind with h | h
    · exact hc h
    · exact hg h.1
  · intro h
    exact ⟨fun k c hk hkind => absurd hkind (h c (List.mem_of_getElem? hk)).1, fun c hmem => (h c hmem).2⟩

/-- Below nodes that accumulators may not stand below, all stand where they may if they do in each child. -/
theorem placed_iff (h : e.kind ∉ [.accumulator, .correlated, .group]) : e.Placed ↔ ∀ c ∈ e.children, c.Placed := by
  simp only [List.mem_cons, List.not_mem_nil, or_false, not_or] at h
  rw [Placed, and_iff_right h.1, tidy_iff_placed h.2.1 h.2.2]

theorem placed_of_containsAccumulator_eq_false (h : e.containsAccumulator = false) : e.Placed := by
  have hnone : ∀ d ∈ e.occurrences, d.kind ≠ .accumulator := fun d hd =>
    (isAccumulator_eq_false_iff.1 (containsAccumulator_eq_false_iff.1 h d hd)).1
  refine ⟨hnone e (mem_occurrences_self e), fun d hd k c hk hc => absurd hc (hnone c ?_)⟩
  exact mem_occurrences_trans hd (mem_occurrences_of_child (List.mem_of_getElem? hk) (mem_occurrences_self c))

/-- Below an accumulator there is none. -/
theorem tidy_of_accumulator (h : e.Checked) (hkind : e.kind = .accumulator) : e.Tidy := by
  rw [tidy_iff_placed (by rw [hkind]; decide) (by rw [hkind]; decide)]
  intro c hc
  exact placed_of_containsAccumulator_eq_false (containsAccumulator_eq_false_iff.2 fun d hd =>
    isAccumulator_eq_false_of_accumulator h hkind hc hd)

/-- An accumulator that is tied to a scope is where it may be. -/
theorem placed_of_correlated (hw : e.WellFormed) (hkind : e.kind = .correlated) : e.Placed := by
  refine ⟨by rw [hkind]; decide, tidy_iff.2 ⟨fun _ _ _ _ => .inl hkind, fun c hc => ?_⟩⟩
  exact tidy_of_accumulator (hw.child hc).checked (kind_child_correlated hw.checked hkind hc)

/-- The accumulators of a group that obeys its rules are its outputs, besides those before it. -/
theorem placed_group_iff {i : NodeInfo} {input key : Expr} {fs : List (String × Expr)}
    (hw : (group i input key scope fs).WellFormed) : (group i input key scope fs).Placed ↔ input.Placed := by
  obtain ⟨hpipeline, -, hkey, houtputs, -⟩ := hw.checked
  have hinput : input.kind ≠ .accumulator := by
    intro hkind
    rw [isPipeline, hkind] at hpipeline
    cases hpipeline
  have hplaced := placed_of_containsAccumulator_eq_false hkey
  have hout : ∀ c ∈ fs.map Prod.snd, c.Tidy := by
    intro c hc
    obtain ⟨f, hf, rfl⟩ := List.mem_map.1 hc
    exact tidy_of_accumulator (hw.child (List.mem_cons_of_mem _ (List.mem_cons_of_mem _ hc))).checked
      (houtputs f hf).2.2
  have hself : (group i input key scope fs).kind ≠ .accumulator := nofun
  rw [Placed, Placed, and_iff_right hinput, and_iff_right hself, tidy_iff]
  constructor
  · exact fun h => h.2 input List.mem_cons_self
  · refine fun h => ⟨fun k c hk hkind => .inr ⟨rfl, ?_⟩,
      List.forall_mem_cons.2 ⟨h, List.forall_mem_cons.2 ⟨hplaced.2, hout⟩⟩⟩
    rcases k with _ | _ | k
    · cases hk
      exact absurd hkind hinput
    · cases hk
      exact absurd hkind hplaced.1
    · omega

end Places

end Aggregation.Expr
