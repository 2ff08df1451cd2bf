import Aggregation.Proofs.Compile.Acceptance
import Aggregation.Proofs.Query.Steps
import Aggregation.Query.Reading

/-!
Queries are compiled unless a host is needed. In what a query builds accumulators stand only where a group computes
them, so nothing but a node of a host keeps the tree of a query from being compiled, and no failure is fatal.
-/

namespace Aggregation

open Aggregation.Expr (Scalar isGroupOf)

namespace Expr

variable {e input : Expr} {tied : Scope → Prop} {ok : String → Prop} {scope : Scope}

/-- In a scalar accumulators stand only below one that is tied to a scope. -/
theorem Scalar.placed (h : Scalar tied ok e) (hw : e.WellFormed) : e.Placed := by
  induction h with
  | constant | field => exact (placed_iff (by simp [kind])).2 (List.forall_mem_nil _)
  | @binary i op left right _ _ ihleft ihright =>
      refine (placed_iff (by simp [kind])).2 (List.forall_mem_cons.2 ⟨?_, List.forall_mem_singleton.2 ?_⟩)
      · exact ihleft (hw.child List.mem_cons_self)
      · exact ihright (hw.child (List.mem_cons_of_mem _ List.mem_cons_self))
  | @unary i op operand _ ih =>
      exact (placed_iff (by simp [kind])).2 (List.forall_mem_singleton.2 (ih (hw.child List.mem_cons_self)))
  | @document i fields _ _ _ ih =>
      refine (placed_iff (by simp [kind])).2 fun c hc => ?_
      obtain ⟨f, hf, rfl⟩ := List.mem_map.1 hc
      exact ih f hf (hw.child hc)
  | count | accumulator => exact placed_of_correlated hw rfl
  | @extension i name args _ ih =>
      exact (placed_iff (by simp [kind])).2 fun c hc => ih c hc (hw.child hc)

/-- The accumulators of a scalar are tied to the scopes that it may use. -/
theorem Scalar.tied_of_mem (h : Scalar tied ok e) (hw : e.WellFormed) {i : NodeInfo} {inner : Expr}
    (hmem : Expr.correlated i scope inner ∈ e.occurrences) : tied scope := by
  have hscalar := h.of_mem_visible (mem_visible_of_kind_eq_correlated hw hmem rfl)
  cases hscalar with
  | count _ _ htied => exact htied
  | accumulator _ _ _ htied => exact htied

/-- A pipeline in which accumulators stand where they may, and read from groups that come before them. -/
structure Sheltered (e : Expr) : Prop where
  isPipeline : e.isPipeline = true
  placed : e.Placed
  anchored : e.Anchored

theorem Sheltered.one (hpipeline : e.isPipeline = true) (hg : e.kind ≠ .group) (hchildren : e.children = [input])
    (h : input.Sheltered) : e.Sheltered := by
  have hkind : e.kind ∉ [.accumulator, .correlated, .group] := by
    simp only [List.mem_cons, List.not_mem_nil, or_false, not_or]
    refine ⟨fun heq => ?_, fun heq => ?_, hg⟩ <;> rw [Expr.isPipeline, heq] at hpipeline <;> cases hpipeline
  refine ⟨hpipeline, (placed_iff hkind).2 ?_, anchored_of_children (fun heq => hkind (by simp [heq])) ?_ ?_⟩
  · rw [hchildren]
    exact List.forall_mem_singleton.2 h.placed
  · rw [hchildren]
    intro c hc
    cases hc
    exact h.anchored
  · rw [hchildren]
    intro k c hc
    cases hc

/-- A pipeline over another one and a scalar, whose accumulators are tied to groups that it reads from. -/
theorem Sheltered.two {d : Expr} (hkind : e.kind = .filter ∨ e.kind = .project) (hchildren : e.children = [input, d])
    (h : input.Sheltered) (hw : e.WellFormed) (hscalar : Scalar tied ok d)
    (htied : ∀ scope, tied scope → e.chain.any (isGroupOf scope) = true) : e.Sheltered := by
  have hne : e.kind ∉ [.accumulator, .correlated, .group] := by
    rcases hkind with heq | heq <;> simp [heq]
  have hwd : d.WellFormed := hw.child (by simp [hchildren])
  refine ⟨by rcases hkind with heq | heq <;> rw [Expr.isPipeline, heq] <;> rfl, (placed_iff hne).2 ?_,
    anchored_of_children (fun heq => hne (by simp [heq])) ?_ ?_⟩
  · rw [hchildren]
    exact List.forall_mem_cons.2 ⟨h.placed, List.forall_mem_singleton.2 (hscalar.placed hwd)⟩
  · rw [hchildren]
    intro c hc
    cases hc
    exact h.anchored
  · rw [hchildren]
    rintro (_ | k) c hc i scope inner hmem
    · cases hc
      exact ⟨rfl, hkind, htied scope (hscalar.tied_of_mem hwd hmem)⟩
    · cases hc

/-- A group without outputs, over a key that is tied to no scope. -/
theorem Sheltered.group {i : NodeInfo} {key : Expr} (h : input.Sheltered)
    (hw : (Expr.group i input key scope []).WellFormed) : (Expr.group i input key scope []).Sheltered := by
  refine ⟨rfl, (placed_group_iff hw).2 h.placed, anchored_of_children nofun ?_ ?_⟩
  · intro c hc
    cases hc
    exact h.anchored
  · rintro (_ | k) c hc j sc inner hmem
    · cases hc
      have hnone := containsAccumulator_eq_false_iff.1 hw.checked.2.2.1 _ hmem
      exact absurd rfl (isAccumulator_eq_false_iff.1 hnone).2
    · cases hc

/-- The groups of a pipeline are pipelines that it is made of. -/
theorem countP_occurrences_eq_chain (hw : e.WellFormed) (hn : e.Native) (hpipeline : e.isPipeline = true)
    (scope : Scope) :
    e.occurrences.countP (isGroupOf scope) = e.chain.countP (isGroupOf scope) := by
  induction e using induction_children with
  | step e ih =>
      have hinput {input : Expr} (hmem : input ∈ e.children) (hp : input.isPipeline = true) :
          input.occurrences.countP (isGroupOf scope) = input.chain.countP (isGroupOf scope) :=
        ih input hmem (hw.child hmem) (hn.child hmem) hp
      have hzero {d : Expr} (hmem : d ∈ e.children) (hscalar : d.isPipeline = false) :
          d.occurrences.countP (isGroupOf scope) = 0 :=
        countP_isGroupOf_eq_zero (hw.child hmem) (hn.child hmem) hscalar
      have hchecked := hw.checked
      rw [Replaced.countP_occurrences]
      cases e with
      | constant | field | binary | unary | document | accumulator | correlated | extension => cases hpipeline
      | source => rfl
      | filter i input d | project i input d =>
          have hfirst := hinput (by simp [children]) hchecked.1
          have hsecond := hzero (by simp [children]) hchecked.2.1
          simp [children, chain, List.countP_cons, hfirst, hsecond]
      | group i input key sc outputs =>
          have hfirst := hinput (by simp [children]) hchecked.1
          have hsecond := hzero (by simp [children]) hchecked.2.1
          have houtputs : ((outputs.map Prod.snd).map fun c => c.occurrences.countP (isGroupOf scope)).sum = 0 :=
            Replaced.sum_countP_outputs (Replaced.outputs_sound hw hn)
          simp only [children, List.map_cons, List.sum_cons, houtputs, hfirst, hsecond, chain, List.countP_cons]
          rfl
      | sort i input | skip i input | limit i input =>
          have hfirst := hinput (by simp [children]) hchecked.1
          simp [children, chain, List.countP_cons, hfirst]

end Expr

namespace Query

open Build (run_bind_eq_ok run_pure_eq_ok run_throw_bind_ne_ok)

variable {c : Surroundings} {r r' : Resolver} {s t u : Supply} {input e : Expr} {st : Step} {steps : List Step}

section Places

theorem Stands.exists_scalar {x : Term} (h : Stands c x s t e) : Scalar (Surrounding c) (fun _ => True) e :=
  h.scalar _ trivial fun _ _ => trivial

theorem not_surrounding_none (scope : Scope) : ¬Surrounding ⟨r, none⟩ scope := nofun

theorem Follows.mem_occurrences (h : Follows st input e) : input ∈ e.occurrences := by
  have hself := input.mem_occurrences_self
  cases h with
  | filter | project | sort | skip | limit => exact Expr.mem_occurrences_of_child (by simp [Expr.children]) hself
  | group i j _ _ hkept =>
      have hgroup {j : NodeInfo} {key : Expr} {scope : Scope} : input ∈ (Expr.group j input key scope []).occurrences :=
        Expr.mem_occurrences_of_child (by simp [Expr.children]) hself
      refine Expr.mem_occurrences_of_child (List.mem_cons_self) ?_
      cases hkept with
      | all => exact hgroup
      | having => exact Expr.mem_occurrences_of_child List.mem_cons_self hgroup

theorem AllFollow.mem_occurrences (h : AllFollow steps input e) : input ∈ e.occurrences := by
  induction h with
  | nil => exact Expr.mem_occurrences_self _
  | cons hfollows _ ih => exact Expr.mem_occurrences_trans ih hfollows.mem_occurrences

/-- What a step of a query adds to a pipeline keeps accumulators where they may stand. -/
theorem Follows.sheltered (h : Follows st input e) (hw : e.WellFormed) (hinput : input.Sheltered) : e.Sheltered := by
  cases h with
  | filter i h =>
      exact .two (.inl rfl) rfl hinput hw h.exists_scalar fun scope hs => absurd hs (not_surrounding_none scope)
  | project i h =>
      exact .two (.inr rfl) rfl hinput hw h.exists_scalar fun scope hs => absurd hs (not_surrounding_none scope)
  | sort | skip | limit => exact hinput.one rfl (by simp [Expr.kind]) rfl
  | @group i j r scope type _ _ _ _ key having select _ keyExpr kept fs _ _ hkept k hfields =>
      have hgroup : ∀ {i : NodeInfo} {sc : Scope}, Surrounding ⟨r, some (scope, type)⟩ sc →
          isGroupOf sc (.group i input keyExpr scope []) = true := by
        rintro i sc ⟨type', heq⟩
        cases heq
        exact decide_eq_true rfl
      have hkeptw : kept.WellFormed := hw.child List.mem_cons_self
      cases hkept with
      | all =>
          refine .two (.inr rfl) rfl (hinput.group hkeptw) hw hfields.exists_scalar fun sc hs => ?_
          simp [Expr.chain, hgroup hs]
      | having i' hpredicate =>
          have hfiltered := (hinput.group (hkeptw.child List.mem_cons_self)).two (.inl rfl) rfl hkeptw
            hpredicate.exists_scalar fun sc hs => by simp [Expr.chain, hgroup hs]
          refine .two (.inr rfl) rfl hfiltered hw hfields.exists_scalar fun sc hs => ?_
          simp [Expr.chain, hgroup hs]

theorem AllFollow.sheltered (h : AllFollow steps input e) (hw : e.WellFormed) (hinput : input.Sheltered) :
    e.Sheltered := by
  induction h with
  | nil => exact hinput
  | cons hfollows hrest ih =>
      have hnext : Expr.WellFormed _ := fun d hd => hw d (Expr.mem_occurrences_trans hrest.mem_occurrences hd)
      exact ih hw (hfollows.sheltered hnext hinput)

end Places

section Compilation

variable {q : Query} {root : Expr} {config : Config} {id : String}

/-- A query that builds is compiled if it needs no host. -/
theorem exists_compile_of_native (hbuild : q.build.run s = .ok (root, t)) (hflaw : config.flaw? = none)
    (hnative : root.Native) : ∃ c, (compile config id root t).result = .ok c := by
  obtain ⟨held, hheld, hroot⟩ := exists_held_of_build hbuild
  have hw := hheld.wellFormed hroot
  obtain ⟨⟨i, hfollow⟩, -⟩ := allFollow_of_build hbuild
  have hsource : (Expr.source i q.collection).Sheltered :=
    ⟨rfl, (Expr.placed_iff (by simp [Expr.kind])).2 nofun,
      Expr.anchored_of_children nofun (fun _ h => nomatch h) (fun _ _ h => nomatch h)⟩
  obtain ⟨hpipeline, hplaced, hanchored⟩ := hfollow.sheltered hw hsource
  refine (exists_compile_iff_of_wellFormed (hheld.fresh hroot) hw hflaw).2
    ⟨hnative, hpipeline, hplaced, fun scope => ?_, hanchored⟩
  rw [Expr.countP_occurrences_eq_chain hw hnative hpipeline]
  exact countP_chain_le_one hbuild scope

/-- A tree with a node of a host is rejected for it. -/
theorem exists_unhandled_of_not_native (hnative : ¬root.Native) :
    ∃ step e, (compile config id root s).result = .error (.unhandled step e) := by
  show ∃ step e, (Compilation.steps config root s).result = _
  unfold Compilation.steps
  cases hcheck : checkCapabilities root with
  | ok u => exact absurd (isOk_checkCapabilities.1 (by rw [hcheck]; rfl)) hnative
  | error err =>
      unfold checkCapabilities at hcheck
      split at hcheck
      · next e _ =>
        cases hcheck
        exact ⟨_, e, rfl⟩
      · cases hcheck

/-- No text of a query leads to a fatal failure. The text, and the query that it says, are at most rejected; and the
tree that is built is compiled, unless one of its nodes belongs to a host, for which it is rejected. -/
theorem rejects_of_text (text : String) : Rejects (ofText text) ∧ ∀ q s, ofText text = .ok q →
    Rejects (q.build.run s) ∧ ∀ root t, q.build.run s = .ok (root, t) → ∀ config id, config.flaw? = none →
      ((∃ err, (compile config id root t).result = .error err) ↔ ∃ e ∈ root.occurrences, e.isExtension = true) ∧
        Rejects (compile config id root t).result := by
  constructor
  · intro err herr
    unfold ofText at herr
    split at herr
    · cases herr
    · cases herr
      rfl
  · intro q s _
    refine ⟨(build_gives q s (.nothing s)).1, fun root t hbuild config id hflaw => ?_⟩
    by_cases hnative : root.Native
    · obtain ⟨c, hc⟩ : ∃ c, (compile config id root t).result = .ok c :=
        exists_compile_of_native hbuild hflaw hnative
      rw [hc]
      refine ⟨iff_of_false nofun ?_, nofun⟩
      rintro ⟨e, he, hext⟩
      rw [hnative e he] at hext
      cases hext
    · obtain ⟨step, e, herr⟩ : ∃ step e, (compile config id root t).result = .error (.unhandled step e) :=
        exists_unhandled_of_not_native hnative
      rw [herr]
      refine ⟨iff_of_true ⟨_, rfl⟩ ?_, fun err h => ?_⟩
      · simpa [Expr.Native] using hnative
      · cases h
        rfl

end Compilation

section Distances

/-- A text of a query that builds, to a tree that passes a check. -/
theorem exists_build_of_text (text : String) {p : Expr → Bool}
    (h : ((ofText text).toOption.bind fun q => (q.build.run {}).toOption).any (fun built => p built.1) = true) :
    ∃ q root t, ofText text = .ok q ∧ q.build.run {} = .ok (root, t) ∧ p root = true := by
  cases htext : ofText text with
  | error e =>
      rw [htext] at h
      cases h
  | ok q =>
      rw [htext] at h
      replace h : (q.build.run {}).toOption.any (fun built => p built.1) = true := h
      cases hbuild : q.build.run {} with
      | error e =>
          rw [hbuild] at h
          cases h
      | ok built =>
          rw [hbuild] at h
          exact ⟨q, built.1, built.2, rfl, hbuild, h⟩

/-- How many orders each region has. -/
def regionCounts : Query :=
  ⟨"orders", [.group (.ofMembers [("field", .string "region")]) none ⟨[("n", .ofMembers [("count", .ofMembers [])])]⟩]⟩

/-- How far away each order is, which only a host can tell. -/
def distances : Query :=
  ⟨"orders", [.project ⟨[("far", .ofMembers [("distance", .array [.ofMembers [("field", .string "place")]])])]⟩]⟩

/-- Counts need no host and are compiled; distances are rejected, but not fatally. -/
theorem rejects_of_text_distances :
    (∃ q root t, ofText regionCounts.toJson.compact = .ok q ∧ q.build.run {} = .ok (root, t) ∧
      ({} : Config).flaw? = none ∧ ¬∃ err, (compile {} "" root t).result = .error err) ∧
    ∃ q root t err, ofText distances.toJson.compact = .ok q ∧ q.build.run {} = .ok (root, t) ∧
      (compile {} "" root t).result = .error err ∧ err.isFatal = false := by
  have hflaw : ({} : Config).flaw? = none := by decide +kernel
  constructor
  · obtain ⟨q, root, t, htext, hbuild, hnative⟩ := exists_build_of_text regionCounts.toJson.compact
      (p := fun root => root.occurrences.all fun e => !e.isExtension) (by decide +kernel)
    obtain ⟨hiff, -⟩ := ((rejects_of_text _).2 q {} htext).2 root t hbuild {} "" hflaw
    refine ⟨q, root, t, htext, hbuild, hflaw, fun herr => ?_⟩
    obtain ⟨e, he, hext⟩ := hiff.1 herr
    have hnone := List.all_eq_true.1 hnative e he
    rw [hext] at hnone
    cases hnone
  · obtain ⟨q, root, t, htext, hbuild, hforeign⟩ := exists_build_of_text distances.toJson.compact
      (p := fun root => root.occurrences.any Expr.isExtension) (by decide +kernel)
    obtain ⟨hiff, hrejects⟩ := ((rejects_of_text _).2 q {} htext).2 root t hbuild {} "" hflaw
    obtain ⟨err, herr⟩ := hiff.2 (List.any_eq_true.1 hforeign)
    exact ⟨q, root, t, err, htext, hbuild, herr, hrejects err herr⟩

end Distances

end Query

end Aggregation
