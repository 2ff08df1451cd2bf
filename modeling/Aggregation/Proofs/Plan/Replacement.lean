import Aggregation.Expr.Equality
import Aggregation.Proofs.Expr.Places
import Aggregation.Proofs.Expr.Sessions
import Mathlib.Algebra.GroupWithZero.Nat

/-!
What planning makes of a tree. Every accumulator that is tied to a scope becomes the field of an output that a group of
the scope has, groups get outputs of their own besides, and all other nodes keep their payload and their type.
-/

namespace Aggregation

open Aggregation.Expr (isGroupOf)

/-- Outputs that a group of a scope gets besides those that it had: accumulators that the tree ties to the scope, under
names of their own, and none of the structure of another output. -/
structure Added (root : Expr) (scope : Scope) (old new : List (String × Expr)) : Prop where
  tied : ∀ f ∈ new, ∃ i, Expr.correlated i scope f.2 ∈ root.occurrences
  nodup : ((old ++ new).map Prod.fst).Nodup
  unlike : ∀ f ∈ new, ∀ g ∈ old ++ new, g.1 ≠ f.1 → g.2.sameStructure f.2 = false

/-- A part of a tree and what it becomes, `up` being the new nodes that yield the documents which scalars read. -/
inductive Replaced (root : Expr) : List Expr → Expr → Expr → Prop
  | correlated {up : List Expr} (i : NodeInfo) (n : Nat) {scope : Scope} {inner g : Expr} {f : String × Expr}
      (hg : g ∈ up) (hscope : g.isGroupOf scope = true) (hf : f ∈ g.outputs)
      (hsame : f.2.sameStructure inner = true) :
      Replaced root up (.correlated i scope inner) (.field ⟨n, i.type⟩ f.1)
  | filter {up : List Expr} (i : NodeInfo) (n : Nat) {input input' predicate predicate' : Expr}
      (hinput : Replaced root [] input input') (hpredicate : Replaced root input'.chain predicate predicate') :
      Replaced root up (.filter i input predicate) (.filter ⟨n, i.type⟩ input' predicate')
  | group {up : List Expr} (i : NodeInfo) (n : Nat) {input input' key key' : Expr} {scope : Scope}
      {old new : List (String × Expr)} (hinput : Replaced root [] input input')
      (hkey : Replaced root input'.chain key key') (hnew : Added root scope old new) :
      Replaced root up (.group i input key scope old) (.group ⟨n, i.type⟩ input' key' scope (old ++ new))
  | project {up : List Expr} (i : NodeInfo) (n : Nat) {input input' projection projection' : Expr}
      (hinput : Replaced root [] input input')
      (hprojection : Replaced root input'.chain projection projection') :
      Replaced root up (.project i input projection) (.project ⟨n, i.type⟩ input' projection')
  | kept {up : List Expr} {e : Expr} (hkind : e.kind ∉ [.correlated, .filter, .group, .project]) (n : Nat)
      {children : List Expr} (hlength : e.children.length = children.length)
      (h : ∀ {c c'}, (c, c') ∈ e.children.zip children → Replaced root up c c') :
      Replaced root up e (e.withChildren ⟨n, e.type⟩ children)

namespace Replaced

variable {root e e' : Expr} {up : List Expr} {scope : Scope}

theorem kind_withChildren (e : Expr) (i : NodeInfo) (children : List Expr) :
    (e.withChildren i children).kind = e.kind := by
  cases e with
  | constant | field | document | accumulator | source | extension => rfl
  | binary | filter | project => rcases children with _ | ⟨_, _ | ⟨_, _ | _⟩⟩ <;> rfl
  | unary | correlated | sort | skip | limit => rcases children with _ | ⟨_, _ | _⟩ <;> rfl
  | group => rcases children with _ | ⟨_, _ | _⟩ <;> rfl

theorem kind_eq (h : Replaced root up e e') (hkind : e.kind ≠ .correlated) : e'.kind = e.kind := by
  cases h with
  | correlated => exact absurd rfl hkind
  | filter | group | project => rfl
  | kept => exact kind_withChildren ..

theorem kind_eq_field (h : Replaced root up e e') (hkind : e.kind = .correlated) : e'.kind = .field := by
  cases h with
  | correlated => rfl
  | filter | group | project => cases hkind
  | kept hkept => exact absurd (hkind ▸ List.mem_cons_self) hkept

theorem type_eq (h : Replaced root up e e') : e'.type = e.type := by
  cases h with
  | correlated | filter | group | project => rfl
  | kept _ n hlength => exact Expr.type_withChildren hlength.symm

theorem isPipeline_eq (h : Replaced root up e e') : e'.isPipeline = e.isPipeline := by
  by_cases hkind : e.kind = .correlated
  · rw [Expr.isPipeline, Expr.isPipeline, h.kind_eq_field hkind, hkind]
    rfl
  · rw [Expr.isPipeline, Expr.isPipeline, h.kind_eq hkind]

theorem exists_mem_zip {xs ys : List Expr} (hlength : xs.length = ys.length) {y : Expr} (hy : y ∈ ys) :
    ∃ x ∈ xs, (x, y) ∈ xs.zip ys := by
  obtain ⟨k, hk, rfl⟩ := List.mem_iff_getElem.1 hy
  have hlt : k < xs.length := hlength ▸ hk
  refine ⟨xs[k], List.getElem_mem hlt, List.mem_iff_getElem.2 ⟨k, ?_, List.getElem_zip⟩⟩
  rw [List.length_zip]
  omega

theorem exists_getElem?_zip {xs ys : List Expr} (hlength : xs.length = ys.length) {k : Nat} {x : Expr}
    (hx : xs[k]? = some x) : ∃ y, ys[k]? = some y ∧ (x, y) ∈ xs.zip ys := by
  obtain ⟨hk, rfl⟩ := List.getElem?_eq_some_iff.1 hx
  have hlt : k < ys.length := hlength ▸ hk
  refine ⟨ys[k], List.getElem?_eq_getElem hlt, List.mem_iff_getElem.2 ⟨k, ?_, List.getElem_zip⟩⟩
  rw [List.length_zip]
  omega

/-- A scalar without accumulators stays without them. -/
theorem containsAccumulator_eq_false (hw : e.WellFormed) (hn : e.Native) (hscalar : e.isPipeline = false)
    (hnone : e.containsAccumulator = false) (h : Replaced root up e e') : e'.containsAccumulator = false := by
  induction h with
  | correlated =>
      have hself := (Expr.containsAccumulator_eq_false_iff_children.1 hnone).1
      exact absurd rfl (Expr.isAccumulator_eq_false_iff.1 hself).2
  | filter | group | project => cases hscalar
  | @kept up e hkind n children hlength _ ih =>
      obtain ⟨hself, hchildren⟩ := Expr.containsAccumulator_eq_false_iff_children.1 hnone
      refine Expr.containsAccumulator_eq_false_iff_children.2 ⟨?_, ?_⟩
      · rw [Expr.isAccumulator_eq_false_iff, kind_withChildren]
        exact Expr.isAccumulator_eq_false_iff.1 hself
      · rw [Expr.children_withChildren hlength.symm]
        intro c' hc'
        obtain ⟨c, hc, hzip⟩ := exists_mem_zip hlength hc'
        exact ih hzip (hw.child hc) (hn.child hc)
          (Expr.isPipeline_child_eq_false hw.checked (Expr.native_iff.1 hn).1 hscalar hc) (hchildren c hc)

/-- Trees are alike to what they become. -/
theorem alike (hw : e.WellFormed) (hn : e.Native) (h : Replaced root up e e') : Expr.Alike e e' := by
  refine ⟨h.isPipeline_eq, h.type_eq, fun hkind => ?_, fun hscalar hnone => ?_⟩
  · rw [h.kind_eq (by rw [hkind]; decide), hkind]
  · exact h.containsAccumulator_eq_false hw hn hscalar hnone

/-- No accumulator is left that is tied to a scope. -/
theorem kind_ne_correlated (hw : e'.WellFormed) (h : Replaced root up e e') :
    ∀ d ∈ e'.occurrences, d.kind ≠ .correlated := by
  have hnode {e : Expr} (hkind : e.kind ≠ .correlated) (hchildren : ∀ c ∈ e.children, ∀ d ∈ c.occurrences,
      d.kind ≠ .correlated) : ∀ d ∈ e.occurrences, d.kind ≠ .correlated := by
    intro d hd
    rw [Expr.occurrences_eq] at hd
    rcases List.mem_cons.1 hd with rfl | hd
    · exact hkind
    · obtain ⟨c, hc, hd⟩ := List.mem_flatMap.1 hd
      exact hchildren c hc d hd
  induction h with
  | correlated => exact hnode nofun nofun
  | filter i n _ _ ihinput ihscalar | project i n _ _ ihinput ihscalar =>
      exact hnode nofun (List.forall_mem_cons.2 ⟨ihinput (hw.child List.mem_cons_self),
        List.forall_mem_singleton.2 (ihscalar (hw.child (List.mem_cons_of_mem _ List.mem_cons_self)))⟩)
  | @group up i n input input' key key' scope old new _ _ _ ihinput ihkey =>
      have hmem : key' ∈ Expr.children (.group ⟨n, i.type⟩ input' key' scope (old ++ new)) :=
        List.mem_cons_of_mem _ List.mem_cons_self
      refine hnode nofun (List.forall_mem_cons.2 ⟨ihinput (hw.child List.mem_cons_self),
        List.forall_mem_cons.2 ⟨ihkey (hw.child hmem), fun c hc => ?_⟩⟩)
      obtain ⟨f, hf, rfl⟩ := List.mem_map.1 hc
      have hkind : f.2.kind = .accumulator := (hw.checked.2.2.2.1 f hf).2.2
      exact fun d hd => Expr.kind_ne_correlated_of_accumulator
        (hw.child (List.mem_cons_of_mem _ (List.mem_cons_of_mem _ hc))).checked hkind hd
  | @kept up e hkind n children hlength _ ih =>
      refine hnode ?_ ?_
      · rw [kind_withChildren]
        exact fun heq => hkind (heq ▸ List.mem_cons_self)
      · intro c' hc'
        have hwc := hw.child hc'
        rw [Expr.children_withChildren hlength.symm] at hc'
        obtain ⟨c, hc, hzip⟩ := exists_mem_zip hlength hc'
        exact ih hzip hwc

/-- A node whose children become others. -/
theorem of_forall₂ (hkind : e.kind ∉ [.correlated, .filter, .group, .project]) (n : Nat) {children : List Expr}
    (h : List.Forall₂ (Replaced root up) e.children children) :
    Replaced root up e (e.withChildren ⟨n, e.type⟩ children) := by
  obtain ⟨hlength, hzip⟩ := List.forall₂_iff_zip.1 h
  exact .kept hkind n hlength hzip

theorem map_eq_of_zip {α : Type} {f g : Expr → α} {xs ys : List Expr} (hlength : xs.length = ys.length)
    (h : ∀ {x y}, (x, y) ∈ xs.zip ys → f y = g x) : ys.map f = xs.map g := by
  have hall : List.Forall₂ (fun x y => f y = g x) xs ys := List.forall₂_iff_zip.2 ⟨hlength, h⟩
  clear h hlength
  induction hall with
  | nil => rfl
  | cons hxy _ ih => rw [List.map_cons, List.map_cons, hxy, ih]

/-- No group stands in an accumulator, and no accumulator that is tied to a scope does. -/
theorem not_mem_accumulator {d : Expr} (hw : e.WellFormed) (hn : e.Native) (hkind : e.kind = .accumulator)
    (hd : d ∈ e.occurrences) : ¬(d.kind = .correlated ∨ d.kind = .group) := by
  have hscalar : d.isPipeline = false :=
    Expr.isPipeline_eq_false_of_mem hw hn (by rw [Expr.isPipeline, hkind]; rfl) hd
  rintro (hd' | hd')
  · exact Expr.kind_ne_correlated_of_accumulator hw.checked hkind hd hd'
  · rw [Expr.isPipeline, hd'] at hscalar
    cases hscalar

theorem countP_occurrences (p : Expr → Bool) (e : Expr) :
    e.occurrences.countP p = (e.children.map fun c => c.occurrences.countP p).sum + if p e = true then 1 else 0 := by
  rw [Expr.occurrences_eq, List.countP_cons, List.countP_flatMap]
  rfl

theorem countP_eq_zero_of_accumulator (hw : e.WellFormed) (hn : e.Native) (hkind : e.kind = .accumulator) :
    e.occurrences.countP (isGroupOf scope) = 0 :=
  Expr.countP_isGroupOf_eq_zero hw hn (by rw [Expr.isPipeline, hkind]; rfl)

theorem sum_countP_outputs {fs : List (String × Expr)}
    (h : ∀ f ∈ fs, f.2.WellFormed ∧ f.2.Native ∧ f.2.kind = .accumulator) :
    ((fs.map Prod.snd).map fun c => c.occurrences.countP (isGroupOf scope)).sum = 0 := by
  induction fs with
  | nil => rfl
  | cons f rest ih =>
      obtain ⟨⟨hw, hn, hkind⟩, hrest⟩ := List.forall_mem_cons.1 h
      rw [List.map_cons, List.map_cons, List.sum_cons, countP_eq_zero_of_accumulator hw hn hkind, ih hrest]

/-- The outputs of a group are accumulators that obey their rules. -/
theorem outputs_sound {i : NodeInfo} {input key : Expr} {fs : List (String × Expr)}
    (hw : (Expr.group i input key scope fs).WellFormed) (hn : (Expr.group i input key scope fs).Native) :
    ∀ f ∈ fs, f.2.WellFormed ∧ f.2.Native ∧ f.2.kind = .accumulator := by
  intro f hf
  have hmem : f.2 ∈ Expr.children (.group i input key scope fs) :=
    List.mem_cons_of_mem _ (List.mem_cons_of_mem _ (List.mem_map_of_mem hf))
  exact ⟨hw.child hmem, hn.child hmem, (hw.checked.2.2.2.1 f hf).2.2⟩

/-- The outputs that a group gets are accumulators that obey their rules. -/
theorem added_sound (hroot : root.WellFormed) (hnative : root.Native) {old new : List (String × Expr)}
    (h : Added root scope old new) : ∀ f ∈ new, f.2.WellFormed ∧ f.2.Native ∧ f.2.kind = .accumulator := by
  intro f hf
  obtain ⟨i, hmem⟩ := h.tied f hf
  have hinner : f.2 ∈ root.occurrences :=
    Expr.mem_occurrences_trans hmem (Expr.mem_occurrences_of_child List.mem_cons_self (Expr.mem_occurrences_self _))
  exact ⟨fun d hd => hroot d (Expr.mem_occurrences_trans hinner hd),
    fun d hd => hnative d (Expr.mem_occurrences_trans hinner hd), (hroot _ hmem).1⟩

/-- As many groups of a scope are in the new tree as there were. -/
theorem countP_isGroupOf (hroot : root.WellFormed) (hnative : root.Native) (hw : e.WellFormed) (hn : e.Native)
    (h : Replaced root up e e') (scope : Scope) :
    e'.occurrences.countP (isGroupOf scope) = e.occurrences.countP (isGroupOf scope) := by
  induction h with
  | correlated i n _ _ hf hsame =>
      rw [Expr.countP_isGroupOf_eq_zero hw hn rfl, Expr.occurrences_eq]
      rfl
  | filter i n _ _ ihinput ihscalar | project i n _ _ ihinput ihscalar =>
      have hinput := ihinput (hw.child List.mem_cons_self) (hn.child List.mem_cons_self)
      have hscalar := ihscalar (hw.child (List.mem_cons_of_mem _ List.mem_cons_self))
        (hn.child (List.mem_cons_of_mem _ List.mem_cons_self))
      rw [countP_occurrences]
      refine Eq.trans ?_ (countP_occurrences _ _).symm
      simp only [Expr.children, List.map_cons, List.map_nil, hinput, hscalar, isGroupOf]
      rfl
  | @group up i n input input' key key' scope old new _ _ hnew ihinput ihkey =>
      have hinput := ihinput (hw.child List.mem_cons_self) (hn.child List.mem_cons_self)
      have hkey := ihkey (hw.child (List.mem_cons_of_mem _ List.mem_cons_self))
        (hn.child (List.mem_cons_of_mem _ List.mem_cons_self))
      have hold := outputs_sound hw hn
      have hall := List.forall_mem_append.2 ⟨hold, added_sound hroot hnative hnew⟩
      rw [countP_occurrences, countP_occurrences _ (.group i input key scope old)]
      simp only [Expr.children, List.map_cons, List.sum_cons, hinput, hkey, isGroupOf, sum_countP_outputs hold,
        sum_countP_outputs hall]
      rfl
  | @kept up e hkind n children hlength _ ih =>
      have hgroup {e : Expr} (h : e.kind ≠ .group) : isGroupOf scope e = false := by
        cases e with
        | group => exact absurd rfl h
        | constant | field | binary | unary | document | accumulator | correlated | source | filter | project | sort
        | skip | limit | extension => rfl
      have hne : e.kind ≠ .group := fun heq => hkind (by rw [heq]; decide)
      have hchildren := map_eq_of_zip (f := fun c => c.occurrences.countP (isGroupOf scope))
        (g := fun c => c.occurrences.countP (isGroupOf scope)) hlength fun {c c'} hzip =>
          ih hzip (hw.child (List.of_mem_zip hzip).1) (hn.child (List.of_mem_zip hzip).1)
      rw [countP_occurrences, countP_occurrences _ e, Expr.children_withChildren hlength.symm, hchildren, hgroup hne,
        hgroup (by rwa [kind_withChildren])]

/-- The new pipelines have the groups that there were. -/
theorem any_chain (h : Replaced root up e e') (scope : Scope) :
    e'.chain.any (isGroupOf scope) = e.chain.any (isGroupOf scope) := by
  induction h with
  | correlated => rfl
  | filter _ _ _ _ ih | project _ _ _ _ ih =>
      simp only [Expr.chain, List.any_cons, ih, isGroupOf]
  | group _ _ _ _ _ ih =>
      simp only [Expr.chain, List.any_cons, ih, isGroupOf]
  | @kept up e hkind n children hlength _ ih =>
      cases e with
      | constant | field | source | document | accumulator | extension => rfl
      | binary =>
          obtain ⟨c, d, rfl⟩ := List.length_eq_two.1 hlength.symm
          rfl
      | unary =>
          obtain ⟨c, rfl⟩ := List.length_eq_one_iff.1 hlength.symm
          rfl
      | correlated | filter | group | project => exact absurd (by simp [Expr.kind]) hkind
      | sort | skip | limit =>
          obtain ⟨c, rfl⟩ := List.length_eq_one_iff.1 hlength.symm
          simp only [Expr.withChildren, Expr.chain, List.any_cons, ih (List.mem_cons_self), isGroupOf]

/-- A group, or an accumulator that is tied to a scope, stands in the new tree where it stood, changed as all are. -/
theorem exists_at? {d : Expr} {path : List Nat} (hw : e.WellFormed) (hn : e.Native) (h : Replaced root up e e')
    (hat : e.at? path = some d) (hd : d.kind = .correlated ∨ d.kind = .group) :
    ∃ up' d', e'.at? path = some d' ∧ Replaced root up' d d' ∧ ∀ g ∈ up', g ∈ up ∨ g ∈ e'.occurrences := by
  induction path generalizing e e' up with
  | nil =>
      cases hat
      exact ⟨up, e', rfl, h, fun g hg => .inl hg⟩
  | cons k path ih =>
      obtain ⟨c, hc, hat⟩ := Option.bind_eq_some_iff.1 hat
      have hmem : c ∈ e.children := List.mem_of_getElem? hc
      have hdc : d ∈ c.occurrences := Expr.mem_occurrences_of_at? hat
      have hchild {c' : Expr} {up' : List Expr} (hc' : e'.children[k]? = some c') (hr : Replaced root up' c c')
          (hup : ∀ g ∈ up', g ∈ up ∨ g ∈ e'.occurrences) : ∃ up' d', e'.at? (k :: path) = some d' ∧
            Replaced root up' d d' ∧ ∀ g ∈ up', g ∈ up ∨ g ∈ e'.occurrences := by
        obtain ⟨up'', d', hat', hr', hup'⟩ := ih (hw.child hmem) (hn.child hmem) hr hat
        refine ⟨up'', d', by rw [Expr.at?, hc']; exact hat', hr', fun g hg => ?_⟩
        rcases hup' g hg with hg | hg
        · exact hup g hg
        · exact .inr (Expr.mem_occurrences_of_child (List.mem_of_getElem? hc') hg)
      have hchain {input' : Expr} (hinput : input' ∈ e'.children) : ∀ g ∈ input'.chain, g ∈ up ∨ g ∈ e'.occurrences :=
        fun g hg => .inr (Expr.mem_occurrences_of_child hinput (Expr.mem_occurrences_of_mem_chain hg))
      cases h with
      | correlated =>
          cases List.mem_singleton.1 hmem
          exact absurd hd (not_mem_accumulator (hw.child hmem) (hn.child hmem) hw.checked.1 hdc)
      | filter i n hinput hscalar | project i n hinput hscalar =>
          rcases k with _ | _ | k
          · cases hc
            exact hchild rfl hinput (List.forall_mem_nil _)
          · cases hc
            exact hchild rfl hscalar (hchain List.mem_cons_self)
          · cases hc
      | group i n hinput hkey hnew =>
          rcases k with _ | _ | k
          · cases hc
            exact hchild rfl hinput (List.forall_mem_nil _)
          · cases hc
            exact hchild rfl hkey (hchain List.mem_cons_self)
          · obtain ⟨f, hf, rfl⟩ := List.mem_map.1 (List.mem_of_getElem? (l := List.map Prod.snd _) hc)
            obtain ⟨hwf, hnf, hkind⟩ := outputs_sound hw hn f hf
            exact absurd hd (not_mem_accumulator hwf hnf hkind hdc)
      | @kept _ _ hkind n children hlength hall =>
          obtain ⟨c', hc', hzip⟩ := exists_getElem?_zip hlength hc
          exact hchild (by rw [Expr.children_withChildren hlength.symm, hc']) (hall hzip) fun g hg => .inl hg

end Replaced

end Aggregation
