import Aggregation.Proofs.Expr.Places
import Aggregation.Proofs.Query.Building

/-!
The pipelines that queries build, step by step. What a step adds stands for the terms of the step, and the whole
tree has new serials. Accumulators of the tree are scalars.
-/

namespace Aggregation.Query

open Aggregation.Expr (Scalar Grown AllGrown isGroupOf)
open Build (run_bind_eq_ok run_pure_eq_ok run_throw_bind_ne_ok)

/-- A group of which a predicate keeps some rows, if there is one. -/
inductive Kept (c : Surroundings) (grouped : Expr) : Option Json → Expr → Prop
  | all : Kept c grouped none grouped
  | having (i : NodeInfo) {s t : Supply} {predicate : Json} {e : Expr} (h : Stands c (term predicate) s t e) :
      Kept c grouped (some predicate) (.filter i grouped e)

/-- A pipeline that a step makes of another. -/
inductive Follows : Step → Expr → Expr → Prop
  | filter (i : NodeInfo) {r : Resolver} {s t : Supply} {predicate : Json} {input e : Expr}
      (h : Stands ⟨r, none⟩ (term predicate) s t e) : Follows (.filter predicate) input (.filter i input e)
  | group (i j : NodeInfo) {r : Resolver} {scope : Scope} {type : ResultType} {s t s' t' : Supply} {key : Json}
      {having : Option Json} {select : Record Json} {input keyExpr kept : Expr} {fs : List (String × Expr)}
      (hselect : select.entries ≠ []) (hkey : Stands ⟨r, none⟩ (term key) s t keyExpr)
      (hkept : Kept ⟨r, some (scope, type)⟩ (.group j input keyExpr scope []) having kept) {k : NodeInfo}
      (hfields : Stands ⟨r, some (scope, type)⟩ (.document (fieldTerms select.entries)) s' t' (.document k fs)) :
      Follows (.group key having select) input (.project i kept (.document k fs))
  | project (i : NodeInfo) {r : Resolver} {s t : Supply} {fields : Record Json} {input : Expr} {k : NodeInfo}
      {fs : List (String × Expr)} (h : Stands ⟨r, none⟩ (.document (fieldTerms fields.entries)) s t (.document k fs)) :
      Follows (.project fields) input (.project i input (.document k fs))
  | sort (i : NodeInfo) {input : Expr} (keys : List SortKey) : Follows (.sort keys) input (.sort i input keys)
  | skip (i : NodeInfo) {input : Expr} (count : Nat) : Follows (.skip count) input (.skip i input count)
  | limit (i : NodeInfo) {input : Expr} {count : Nat} (hcount : count ≠ 0) :
      Follows (.limit count) input (.limit i input count)

/-- A pipeline that steps in turn make of another. -/
inductive AllFollow : List Step → Expr → Expr → Prop
  | nil (e : Expr) : AllFollow [] e e
  | cons {st : Step} {rest : List Step} {input next e : Expr} (h : Follows st input next)
      (hrest : AllFollow rest next e) : AllFollow (st :: rest) input e

section Building

variable {c : Surroundings} {r r' : Resolver} {s₀ s t u : Supply} {input e : Expr}

theorem document_eq_ok {select : Record Json} (h : (document c select).run s = .ok (e, t)) :
    ∃ k fs, e = .document k fs ∧ Stands c (.document (fieldTerms select.entries)) s t e := by
  obtain ⟨fs, u, hfs, h⟩ := run_bind_eq_ok.1 h
  have hstands := stands_document (stands_fields (fun m _ => stands_built c m.2) hfs) h
  obtain ⟨-, -, k, rfl, -⟩ := Build.document_eq_ok h
  exact ⟨k, fs, rfl, hstands⟩

/-- Building a node and giving it back beside the resolver. -/
theorem run_pair_eq_ok {x : Build Expr} (h : (do return (← x, r) : Build (Expr × Resolver)).run s = .ok ((e, r'), t)) :
    x.run s = .ok (e, t) := by
  obtain ⟨node, u, hnode, h⟩ := run_bind_eq_ok.1 h
  obtain ⟨heq, rfl⟩ := run_pure_eq_ok.1 h
  cases heq
  exact hnode

/-- From one supply up to another a pipeline has got a group of each scope that has been minted, and no others. -/
structure Mints (s t : Supply) (input e : Expr) : Prop where
  le : s.nextScope ≤ t.nextScope
  count : ∀ scope : Scope, e.chain.countP (isGroupOf scope) = input.chain.countP (isGroupOf scope)
    + if s.nextScope ≤ scope.number ∧ scope.number < t.nextScope then 1 else 0

theorem Mints.trans {next : Expr} (h : Mints s t input next) (h' : Mints t u next e) : Mints s u input e := by
  refine ⟨Nat.le_trans h.le h'.le, fun scope => ?_⟩
  have hle := h.le
  have hle' := h'.le
  rw [h'.count, h.count]
  split <;> split <;> split <;> omega

/-- A pipeline that is no group, made without minting a scope. -/
theorem Mints.cons (hchain : e.chain = e :: input.chain) (hg : e.kind ≠ .group) (h : t.nextScope = s.nextScope) :
    Mints s t input e := by
  refine ⟨Nat.le_of_eq h.symm, fun scope => ?_⟩
  have hself : ¬isGroupOf scope e = true := fun heq => hg (Expr.kind_eq_group_of_isGroupOf heq)
  have hnone : ¬(s.nextScope ≤ scope.number ∧ scope.number < t.nextScope) := by omega
  rw [hchain, List.countP_cons, if_neg hself, if_neg hnone]

/-- A group of the scope that has been minted for it. -/
theorem Mints.group {i : NodeInfo} {key : Expr} {scope : Scope} {outputs : List (String × Expr)}
    (hscope : scope.number = s.nextScope) (h : t.nextScope = s.nextScope + 1) :
    Mints s t input (.group i input key scope outputs) := by
  refine ⟨by omega, fun sc => ?_⟩
  have hiff : isGroupOf sc (.group i input key scope outputs) = true
      ↔ s.nextScope ≤ sc.number ∧ sc.number < t.nextScope := by
    rw [show isGroupOf sc (.group i input key scope outputs) = decide (scope = sc) from rfl, decide_eq_true_eq]
    constructor
    · rintro rfl
      omega
    · intro hbetween
      have hnumber : scope.number = sc.number := by omega
      cases scope
      cases sc
      exact congrArg Scope.mk hnumber
  rw [Expr.chain, List.countP_cons]
  simp only [hiff]

/-- What building does to a pipeline: its nodes are new, and so are its groups. -/
structure Builds (s t : Supply) (input e : Expr) : Prop extends Mints s t input e where
  grown : ∀ {s₀ : Supply}, Grown s₀ s input → Grown s₀ t e

theorem Builds.refl (s : Supply) (e : Expr) : Builds s s e e := by
  refine ⟨⟨Nat.le_refl _, fun scope => ?_⟩, id⟩
  rw [if_neg fun h => Nat.lt_irrefl _ (Nat.lt_of_le_of_lt h.1 h.2), Nat.add_zero]

theorem Builds.trans {next : Expr} (h : Builds s t input next) (h' : Builds t u next e) : Builds s u input e :=
  ⟨h.toMints.trans h'.toMints, fun hgrown => h'.grown (h.grown hgrown)⟩

/-- A pipeline over another that is no group. -/
theorem Builds.single (hchain : e.chain = e :: input.chain) (hg : e.kind ≠ .group) (hchildren : e.children = [input])
    (hm : Build.Minted s t e.info) : Builds s t input e :=
  ⟨.cons hchain hg (nextScope_of_minted hm), fun hgrown => (AllGrown.singleton hgrown).grown hchildren hm⟩

/-- A pipeline over another and a scalar that has been built after it. -/
theorem grown_over {input scalar e : Expr} {u v : Supply} (hinput : Grown s₀ s input) (hscalar : Grown t u scalar)
    (hst : t.nextNode = s.nextNode) (hchildren : e.children = [input, scalar]) (hm : Build.Minted u v e.info) :
    Grown s₀ v e := by
  have hscalar' : Grown s u scalar := by
    unfold Grown at hscalar ⊢
    rwa [hst] at hscalar
  exact ((AllGrown.singleton hinput).append (.singleton hscalar')).grown hchildren hm

theorem Builds.over {x : Term} {scalar : Expr} (hscalar : Stands c x s t scalar) (hchain : e.chain = e :: input.chain)
    (hg : e.kind ≠ .group) (hchildren : e.children = [input, scalar]) (hm : Build.Minted t u e.info) :
    Builds s u input e :=
  ⟨.cons hchain hg ((nextScope_of_minted hm).trans hscalar.scopes),
    fun hgrown => grown_over hgrown hscalar.grown rfl hchildren hm⟩

/-- A group over another pipeline, of a scope that has been minted before its key has been built. -/
theorem builds_group {x : Term} {scope : Scope} {key : Expr} {j : NodeInfo} {s₁ : Supply}
    (hmint : r.mint.run s = .ok ((scope, r'), s₁)) (hkey : Stands c x s₁ t key) (hm : Build.Minted t u j) :
    Builds s u input (.group j input key scope []) := by
  have hscopes : u.nextScope = s₁.nextScope := (nextScope_of_minted hm).trans hkey.scopes
  cases hmint
  exact ⟨.group rfl hscopes, fun hgrown => grown_over hgrown hkey.grown rfl rfl hm⟩

/-- What a grouping selects, after the rows that it keeps. -/
theorem selected_eq_ok {scope : Scope} {type : ResultType} {j : NodeInfo} {key : Json} {having : Option Json}
    {select : Record Json} {keyExpr kept : Expr} {v w : Supply} (hselect : ¬select.isEmpty = true)
    (hkey : Stands ⟨r, none⟩ (term key) v w keyExpr)
    (hkept : Kept ⟨r, some (scope, type)⟩ (.group j input keyExpr scope []) having kept)
    (h : (do return (← Build.project kept (← document ⟨r, some (scope, type)⟩ select), r) :
      Build (Expr × Resolver)).run s = .ok ((e, r'), t)) :
    Follows (.group key having select) input e ∧ Builds s t kept e := by
  obtain ⟨d, s₁, hd, hproject⟩ := run_bind_eq_ok.1 h
  obtain ⟨k, fs, rfl, hfields⟩ := document_eq_ok hd
  obtain ⟨i, rfl, hi⟩ := Build.project_eq_ok (run_pair_eq_ok hproject)
  have hne : select.entries ≠ [] := fun hnil => hselect (List.isEmpty_iff.2 hnil)
  exact ⟨.group i j hne hkey hkept hfields, .over hfields rfl nofun rfl hi⟩

theorem group_eq_ok {key : Json} {having : Option Json} {select : Record Json}
    (h : (group r input key having select).run s = .ok ((e, r'), t)) :
    Follows (.group key having select) input e ∧ Builds s t input e := by
  unfold group at h
  by_cases hselect : select.isEmpty = true
  · rw [if_pos hselect] at h
    exact absurd h run_throw_bind_ne_ok
  rw [if_neg hselect] at h
  obtain ⟨⟨scope, r₁⟩, s₁, hmint, h⟩ := run_bind_eq_ok.1 h
  obtain ⟨keyExpr, s₂, hkey, h⟩ := run_bind_eq_ok.1 h
  obtain ⟨grouped, s₃, hgrouped, h⟩ := run_bind_eq_ok.1 h
  have hkey := stands_expression key hkey
  obtain ⟨-, -, j, rfl, hj⟩ := Build.group_eq_ok hgrouped
  have hgroup : Builds s s₃ input (.group j input keyExpr scope []) := builds_group hmint hkey hj
  cases having with
  | none =>
      obtain ⟨kept, s₄, hkept, h⟩ := run_bind_eq_ok.1 h
      obtain ⟨rfl, rfl⟩ := run_pure_eq_ok.1 hkept
      obtain ⟨hfollows, hbuilds⟩ := selected_eq_ok hselect hkey .all h
      exact ⟨hfollows, hgroup.trans hbuilds⟩
  | some predicate =>
      obtain ⟨p, s₄, hp, h⟩ := run_bind_eq_ok.1 h
      obtain ⟨kept, s₅, hkept, h⟩ := run_bind_eq_ok.1 h
      have hstands := stands_expression predicate hp
      obtain ⟨i, rfl, hi⟩ := Build.filter_eq_ok hkept
      obtain ⟨hfollows, hbuilds⟩ := selected_eq_ok hselect hkey (.having i hstands) h
      have hfilter : Builds s₃ s₅ (.group j input keyExpr scope []) (.filter i (.group j input keyExpr scope []) p) :=
        .over hstands rfl NodeKind.noConfusion rfl hi
      exact ⟨hfollows, hgroup.trans (hfilter.trans hbuilds)⟩

/-- A step that is built follows its input, by nodes with new serials and groups of new scopes. -/
theorem follows_of_step {st : Step} (h : (step r input st).run s = .ok ((e, r'), t)) :
    Follows st input e ∧ Builds s t input e := by
  cases st with
  | filter predicate =>
      obtain ⟨p, u, hp, hnode⟩ := run_bind_eq_ok.1 h
      have hstands := stands_expression predicate hp
      obtain ⟨i, rfl, hm⟩ := Build.filter_eq_ok (run_pair_eq_ok hnode)
      exact ⟨.filter i hstands, .over hstands rfl nofun rfl hm⟩
  | group key having select => exact group_eq_ok h
  | project fields =>
      obtain ⟨p, u, hp, hnode⟩ := run_bind_eq_ok.1 h
      obtain ⟨k, fs, rfl, hstands⟩ := document_eq_ok hp
      obtain ⟨i, rfl, hm⟩ := Build.project_eq_ok (run_pair_eq_ok hnode)
      exact ⟨.project i hstands, .over hstands rfl nofun rfl hm⟩
  | sort keys =>
      obtain ⟨i, rfl, hm⟩ := Build.sort_eq_ok (run_pair_eq_ok h)
      exact ⟨.sort i keys, .single rfl nofun rfl hm⟩
  | skip count =>
      obtain ⟨i, rfl, hm⟩ := Build.skip_eq_ok (run_pair_eq_ok h)
      exact ⟨.skip i count, .single rfl nofun rfl hm⟩
  | limit count =>
      obtain ⟨hcount, i, rfl, hm⟩ := Build.limit_eq_ok (run_pair_eq_ok h)
      exact ⟨.limit i hcount, .single rfl nofun rfl hm⟩

theorem allFollow_of_follow {steps : List Step} (h : (follow r input steps).run s = .ok (e, t)) :
    AllFollow steps input e ∧ Builds s t input e := by
  induction steps generalizing r s input with
  | nil =>
      obtain ⟨rfl, rfl⟩ := run_pure_eq_ok.1 h
      exact ⟨.nil e, .refl _ e⟩
  | cons st rest ih =>
      obtain ⟨⟨next, r'⟩, u, hstep, h⟩ := run_bind_eq_ok.1 h
      obtain ⟨hfollows, hnext⟩ := follows_of_step hstep
      obtain ⟨hall, hbuilds⟩ := ih h
      exact ⟨.cons hfollows hall, hnext.trans hbuilds⟩

/-- The pipeline of a query follows the documents of its collection. -/
theorem allFollow_of_build {q : Query} (h : q.build.run s = .ok (e, t)) :
    (∃ i, AllFollow q.steps (.source i q.collection) e) ∧ Grown s t e := by
  obtain ⟨source, u, hsource, h⟩ := run_bind_eq_ok.1 h
  obtain ⟨i, rfl, hm⟩ := Build.source_eq_ok hsource
  obtain ⟨hall, hbuilds⟩ := allFollow_of_follow h
  exact ⟨⟨i, hall⟩, hbuilds.grown (AllGrown.nil.grown rfl hm)⟩

/-- No scope has two groups in what a query builds. -/
theorem countP_chain_le_one {q : Query} (h : q.build.run s = .ok (e, t)) (scope : Scope) :
    e.chain.countP (isGroupOf scope) ≤ 1 := by
  obtain ⟨source, u, hsource, h⟩ := run_bind_eq_ok.1 h
  obtain ⟨i, rfl, -⟩ := Build.source_eq_ok hsource
  have hcount := (allFollow_of_follow h).2.count scope
  have hnone : (Expr.source i q.collection).chain.countP (isGroupOf scope) = 0 := rfl
  rw [hnone] at hcount
  split at hcount <;> omega

end Building

section Accumulators

variable {c : Surroundings} {s t : Supply} {x : Term} {input e : Expr}

/-- Every accumulator of a tree that is tied to a scope is a scalar. -/
def HasScalars (e : Expr) : Prop :=
  ∀ i scope inner, Expr.correlated i scope inner ∈ e.visible →
    Scalar (fun _ => True) (fun _ => True) (.correlated i scope inner)

theorem hasScalars_of_children (hk : e.kind ≠ .correlated) (h : ∀ d ∈ e.children, HasScalars d) : HasScalars e := by
  intro i scope inner hmem
  rcases Expr.exists_child_of_mem_visible hmem hk with rfl | ⟨d, hd, hmem⟩
  · exact absurd rfl hk
  · exact h d hd i scope inner hmem

theorem Stands.hasScalars (h : Stands c x s t e) : HasScalars e := by
  intro i scope inner hmem
  have hscalar := h.scalar (fun _ => True) trivial fun _ _ => trivial
  exact (hscalar.mono (fun _ _ => trivial) fun _ hok => hok).of_mem_visible hmem

theorem Kept.hasScalars {grouped : Expr} {having : Option Json} (h : Kept c grouped having e)
    (hgrouped : HasScalars grouped) : HasScalars e := by
  cases h with
  | all => exact hgrouped
  | having i h =>
      exact hasScalars_of_children nofun (List.forall_mem_cons.2 ⟨hgrouped, List.forall_mem_singleton.2 h.hasScalars⟩)

theorem Follows.hasScalars {st : Step} (h : Follows st input e) (hinput : HasScalars input) : HasScalars e := by
  cases h with
  | filter i h =>
      exact hasScalars_of_children nofun (List.forall_mem_cons.2 ⟨hinput, List.forall_mem_singleton.2 h.hasScalars⟩)
  | group i j _ hkey hkept hfields =>
      have hgroup := hkept.hasScalars (hasScalars_of_children nofun
        (List.forall_mem_cons.2 ⟨hinput, List.forall_mem_singleton.2 hkey.hasScalars⟩))
      exact hasScalars_of_children nofun
        (List.forall_mem_cons.2 ⟨hgroup, List.forall_mem_singleton.2 hfields.hasScalars⟩)
  | project i h =>
      exact hasScalars_of_children nofun (List.forall_mem_cons.2 ⟨hinput, List.forall_mem_singleton.2 h.hasScalars⟩)
  | sort | skip | limit => exact hasScalars_of_children nofun (List.forall_mem_singleton.2 hinput)

theorem AllFollow.hasScalars {steps : List Step} (h : AllFollow steps input e) (hinput : HasScalars input) :
    HasScalars e := by
  induction h with
  | nil => exact hinput
  | cons hfollows _ ih => exact ih (hfollows.hasScalars hinput)

end Accumulators

end Aggregation.Query
