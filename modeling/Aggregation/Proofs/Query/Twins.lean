import Aggregation.Proofs.Expr.Relabel
import Aggregation.Proofs.Query.Sessions

/-!
Building the same query from two supplies. The trees are twins: they differ in serials and scopes only, and the scopes
that were minted for one stand where those that were minted for the other do.
-/

namespace Aggregation

open Aggregation.Expr (bare relabelEntries)

variable {ρ ρ' : Scope → Scope}

/-- Trees that look the same once each is given new scopes. -/
def Expr.Twin (ρ ρ' : Scope → Scope) (e e' : Expr) : Prop := e.bare ρ = e'.bare ρ'

namespace Expr

variable {e e' : Expr}

theorem Twin.type_eq (h : e.Twin ρ ρ' e') : e.type = e'.type := by
  have htype := congrArg Expr.type h
  rwa [bare, bare, type_relabel, type_relabel] at htype

theorem Twin.checked (h : e.Twin ρ ρ' e') (hchecked : e.Checked) : e'.Checked := by
  have hbare : (e.bare ρ).Checked := (checked_relabel e).2 hchecked
  rw [h] at hbare
  exact (checked_relabel e').1 hbare

theorem relabel_eq_of_type_eq {i j : NodeInfo} (h : i.type = j.type) :
    i.relabel (fun _ => 0) = j.relabel fun _ => 0 := by
  rw [NodeInfo.relabel, NodeInfo.relabel, h]

theorem map_bare_of_forall₂ {es es' : List Expr} (h : List.Forall₂ (Twin ρ ρ') es es') :
    es.map (bare ρ) = es'.map (bare ρ') := by
  induction h with
  | nil => rfl
  | cons hd _ ih => rw [List.map_cons, List.map_cons, hd, ih]

/-- A node without a scope is a twin of itself over twins of its children. -/
theorem Twin.withChildren {j : NodeInfo} {children : List Expr} (hc : e.kind ≠ .correlated) (hg : e.kind ≠ .group)
    (htype : e.type = j.type) (h : List.Forall₂ (Twin ρ ρ') e.children children) :
    e.Twin ρ ρ' (e.withChildren j children) := by
  rw [Twin, bare, bare, relabel_kept hc hg, relabel_withChildren hc hg h.length_eq.symm, relabel_eq_of_type_eq htype]
  exact congrArg _ (map_bare_of_forall₂ h)

end Expr

/-- Supplies of which the scopes still to be minted are given the same new ones. -/
def Supply.Level (ρ ρ' : Scope → Scope) (s u : Supply) : Prop := ∀ j, ρ ⟨s.nextScope + j⟩ = ρ' ⟨u.nextScope + j⟩

theorem Supply.Level.mint {s u : Supply} (h : s.Level ρ ρ' u) :
    Supply.Level ρ ρ' ⟨s.nextNode, s.nextScope + 1⟩ ⟨u.nextNode, u.nextScope + 1⟩ := by
  intro j
  have hj := h (1 + j)
  rwa [← Nat.add_assoc, ← Nat.add_assoc] at hj

namespace Build

variable {α β γ δ : Type} {R : α → β → Prop} {S : γ → δ → Prop} {x : Build α} {y : Build β}

/-- Where one step succeeds the other does, with a result that is related to the first and a supply on its level. -/
def Twins (ρ ρ' : Scope → Scope) (R : α → β → Prop) (x : Build α) (y : Build β) : Prop :=
  ∀ s u, s.Level ρ ρ' u → ∀ a t, x.run s = .ok (a, t) → ∃ b v, y.run u = .ok (b, v) ∧ t.Level ρ ρ' v ∧ R a b

theorem Twins.pure {a : α} {b : β} (h : R a b) : Twins ρ ρ' R (pure a) (pure b) := by
  intro s u hlevel a' t hrun
  obtain ⟨rfl, rfl⟩ := run_pure_eq_ok.1 hrun
  exact ⟨b, u, rfl, hlevel, h⟩

theorem Twins.throw_bind {err : CompileError} {f : γ → Build α} : Twins ρ ρ' R (throw err >>= f) y :=
  fun _ _ _ _ _ hrun => absurd hrun run_throw_bind_ne_ok

theorem Twins.throw {err : CompileError} : Twins ρ ρ' R (throw err : Build α) y := fun _ _ _ _ _ => nofun

theorem Twins.bind {f : α → Build γ} {g : β → Build δ} (h : Twins ρ ρ' R x y)
    (hf : ∀ a b, R a b → Twins ρ ρ' S (f a) (g b)) : Twins ρ ρ' S (x >>= f) (y >>= g) := by
  intro s u hlevel c t hrun
  obtain ⟨a, s', hx, hrun⟩ := run_bind_eq_ok.1 hrun
  obtain ⟨b, u', hy, hlevel', hab⟩ := h s u hlevel a s' hx
  obtain ⟨d, v, hg, hlevel'', hcd⟩ := hf a b hab s' u' hlevel' c t hrun
  exact ⟨d, v, run_bind_eq_ok.2 ⟨b, u', hy, hg⟩, hlevel'', hcd⟩

theorem Twins.map {f : α → γ} {g : β → δ} (h : Twins ρ ρ' R x y) (himp : ∀ a b, R a b → S (f a) (g b)) :
    Twins ρ ρ' S (f <$> x) (g <$> y) := by
  rw [map_eq_pure_bind, map_eq_pure_bind]
  exact h.bind fun a b hab => .pure (himp a b hab)

section Nodes

variable {x y : Build Expr} {node node' : NodeInfo → Expr}

/-- Steps that make nodes which are twins whatever serials they get. -/
theorem Makes.twins (hx : Makes x node) (hy : Makes y node')
    (h : ∀ i j, i.type = j.type → (node i).Twin ρ ρ' (node' j)) : Twins ρ ρ' (Expr.Twin ρ ρ') x y := by
  intro s u hlevel e t hrun
  obtain ⟨type, rfl, hchecked, rfl⟩ := (hx s e t).1 hrun
  have htwin := h ⟨s.nextNode, type⟩ ⟨u.nextNode, type⟩ rfl
  exact ⟨_, _, (hy u _ _).2 ⟨type, rfl, htwin.checked hchecked, rfl⟩, hlevel, htwin⟩

/-- Steps that make nodes of one payload without a scope, over children that are twins. -/
theorem Makes.twins_kept {children : List Expr} (hx : Makes x node) (hy : Makes y node')
    (hkind : ∀ i, (node i).kind ∉ [.correlated, .group]) (hinfo : ∀ i, (node i).info = i)
    (hnode : ∀ i j, (node i).withChildren j children = node' j)
    (h : ∀ i, List.Forall₂ (Expr.Twin ρ ρ') (node i).children children) : Twins ρ ρ' (Expr.Twin ρ ρ') x y := by
  refine hx.twins hy fun i j htype => ?_
  obtain ⟨hc, hg⟩ : (node i).kind ≠ .correlated ∧ (node i).kind ≠ .group := by simpa using hkind i
  rw [← hnode i j]
  exact .withChildren hc hg (by rw [Expr.type, hinfo, htype]) (h i)

end Nodes

end Build

open Build (Twins)
open Aggregation.Expr (Twin)

/-- Named trees that are twins under the same names. -/
def EntriesTwin (ρ ρ' : Scope → Scope) (fs fs' : List (String × Expr)) : Prop :=
  relabelEntries (fun _ => 0) ρ fs = relabelEntries (fun _ => 0) ρ' fs'

namespace Query

section Calls

variable {left left' right right' operand operand' input input' : Expr} {scope scope' : Scope}

theorem path_twins (path : String) (type : ResultType) :
    Twins ρ ρ' (Twin ρ ρ') (Build.field path type) (Build.field path type) := by
  intro s u hlevel e t hrun
  obtain ⟨hpath, rfl, rfl⟩ := Build.field_run_iff.1 hrun
  exact ⟨_, _, Build.field_run_iff.2 ⟨hpath, rfl, rfl⟩, hlevel, rfl⟩

theorem binary_call_twins (op : BinaryOp) (hleft : left.Twin ρ ρ' left') (hright : right.Twin ρ ρ' right') :
    Twins ρ ρ' (Twin ρ ρ') (Build.binary op left right) (Build.binary op left' right') :=
  (Build.binary_makes op left right).twins_kept (Build.binary_makes op left' right') (fun _ => by simp [Expr.kind])
    (fun _ => rfl) (fun _ _ => rfl) fun _ => .cons hleft (.cons hright .nil)

theorem unary_call_twins (op : UnaryOp) (h : operand.Twin ρ ρ' operand') :
    Twins ρ ρ' (Twin ρ ρ') (Build.unary op operand) (Build.unary op operand') :=
  (Build.unary_makes op operand).twins_kept (Build.unary_makes op operand') (fun _ => by simp [Expr.kind])
    (fun _ => rfl) (fun _ _ => rfl) fun _ => .cons h .nil

theorem document_call_twins {fs fs' : List (String × Expr)} (h : EntriesTwin ρ ρ' fs fs') :
    Twins ρ ρ' (Twin ρ ρ') (Build.document fs) (Build.document fs') :=
  (Build.document_makes fs).twins (Build.document_makes fs') fun i j htype => by
    show Expr.document _ (relabelEntries _ ρ fs) = Expr.document _ (relabelEntries _ ρ' fs')
    rw [Expr.relabel_eq_of_type_eq htype, h]

theorem accumulator_call_twins (op : AccumulatorOp) {d d' : Option Expr} (h : d.map (bare ρ) = d'.map (bare ρ')) :
    Twins ρ ρ' (Twin ρ ρ') (Build.accumulator op d) (Build.accumulator op d') :=
  (Build.accumulator_makes op d).twins (Build.accumulator_makes op d') fun i j htype => by
    show Expr.accumulator _ op (Expr.relabelOperand _ ρ d) = Expr.accumulator _ op (Expr.relabelOperand _ ρ' d')
    rw [Expr.relabel_eq_of_type_eq htype, Expr.relabelOperand_eq, Expr.relabelOperand_eq]
    exact congrArg _ h

/-- A resolver that owns the scope ties an accumulator to it. -/
theorem tag_call_twins {r r' : Resolver} (howns : r'.owns scope' = true) (hscope : ρ scope = ρ' scope')
    (h : operand.Twin ρ ρ' operand') :
    Twins ρ ρ' (Twin ρ ρ') (r.tag operand scope) (r'.tag operand' scope') := by
  have hcall : Twins ρ ρ' (Twin ρ ρ') (Build.correlated scope operand) (Build.correlated scope' operand') :=
    (Build.correlated_makes scope operand).twins (Build.correlated_makes scope' operand') fun i j htype => by
      show Expr.correlated _ (ρ scope) (operand.bare ρ) = Expr.correlated _ (ρ' scope') (operand'.bare ρ')
      rw [Expr.relabel_eq_of_type_eq htype, hscope, h]
  unfold Resolver.tag
  rw [if_neg (not_not.2 howns)]
  split
  · exact .throw
  · exact hcall

theorem extension_call_twins (name : String) {args args' : List Expr} (h : List.Forall₂ (Twin ρ ρ') args args') :
    Twins ρ ρ' (Twin ρ ρ') (Build.extension name args) (Build.extension name args') :=
  (Build.extension_makes name args).twins_kept (Build.extension_makes name args') (fun _ => by simp [Expr.kind])
    (fun _ => rfl) (fun _ _ => rfl) fun _ => h

theorem filter_call_twins (hinput : input.Twin ρ ρ' input') (h : operand.Twin ρ ρ' operand') :
    Twins ρ ρ' (Twin ρ ρ') (Build.filter input operand) (Build.filter input' operand') :=
  (Build.filter_makes input operand).twins_kept (Build.filter_makes input' operand') (fun _ => by simp [Expr.kind])
    (fun _ => rfl) (fun _ _ => rfl) fun _ => .cons hinput (.cons h .nil)

theorem project_call_twins (hinput : input.Twin ρ ρ' input') (h : operand.Twin ρ ρ' operand') :
    Twins ρ ρ' (Twin ρ ρ') (Build.project input operand) (Build.project input' operand') :=
  (Build.project_makes input operand).twins_kept (Build.project_makes input' operand') (fun _ => by simp [Expr.kind])
    (fun _ => rfl) (fun _ _ => rfl) fun _ => .cons hinput (.cons h .nil)

theorem group_call_twins (hinput : input.Twin ρ ρ' input') (h : operand.Twin ρ ρ' operand')
    (hscope : ρ scope = ρ' scope') :
    Twins ρ ρ' (Twin ρ ρ') (Build.group input operand scope []) (Build.group input' operand' scope' []) :=
  (Build.group_makes input operand scope []).twins (Build.group_makes input' operand' scope' []) fun i j htype => by
    show Expr.group _ (input.bare ρ) (operand.bare ρ) (ρ scope) [] =
      Expr.group _ (input'.bare ρ') (operand'.bare ρ') (ρ' scope') []
    rw [Expr.relabel_eq_of_type_eq htype, hinput, h, hscope]

end Calls

section Expressions

variable {c c' : Surroundings}

/-- Surroundings of twins: both are in a group, of scopes that are given the same new one, or both are in none. -/
structure Around (ρ ρ' : Scope → Scope) (c c' : Surroundings) : Prop where
  owned : Owned c'
  group : c.group.map (Prod.map ρ id) = c'.group.map (Prod.map ρ' id)

theorem Around.exists_group (h : Around ρ ρ' c c') {scope : Scope} {type : ResultType}
    (hgroup : c.group = some (scope, type)) :
    ∃ scope', c'.group = some (scope', type) ∧ ρ scope = ρ' scope' ∧ c'.resolver.owns scope' = true := by
  have hmap := h.group
  rw [hgroup] at hmap
  obtain ⟨⟨scope', type'⟩, hgroup', heq⟩ := Option.map_eq_some_iff.1 hmap.symm
  obtain ⟨hscope, htype⟩ := Prod.mk.inj heq
  cases htype
  exact ⟨scope', hgroup', hscope.symm, h.owned scope' type hgroup'⟩

theorem literal_twins (j : Json) : Twins ρ ρ' (Twin ρ ρ') (literal j) (literal j) := by
  unfold literal
  split
  · next v _ =>
    exact (Build.constant_makes v).twins_kept (Build.constant_makes v) (fun _ => by simp [Expr.kind]) (fun _ => rfl)
      (fun _ _ => rfl) fun _ => .nil
  · exact .throw

theorem field_twins (path : Json) (type : Option Json) :
    Twins ρ ρ' (Twin ρ ρ') (field path type) (field path type) := by
  unfold field
  split
  · split
    · exact path_twins _ _
    · split
      · exact path_twins _ _
      · exact .throw
    · exact .throw
  · exact .throw

theorem groupKey_twins (hc : Around ρ ρ' c c') : Twins ρ ρ' (Twin ρ ρ') (groupKey c) (groupKey c') := by
  cases hgroup : c.group with
  | none =>
      rw [groupKey, hgroup]
      exact .throw
  | some p =>
      obtain ⟨scope', hgroup', -⟩ := hc.exists_group hgroup
      rw [groupKey, groupKey, hgroup, hgroup']
      exact path_twins _ _

theorem foldlM_twins (op : BinaryOp) {first first' : Expr} {rest rest' : List Expr} (hfirst : first.Twin ρ ρ' first')
    (hrest : List.Forall₂ (Twin ρ ρ') rest rest') :
    Twins ρ ρ' (Twin ρ ρ') (rest.foldlM (Build.binary op) first) (rest'.foldlM (Build.binary op) first') := by
  induction hrest generalizing first first' with
  | nil => exact .pure hfirst
  | cons hsecond _ ih =>
      rw [List.foldlM_cons, List.foldlM_cons]
      exact (binary_call_twins op hfirst hsecond).bind fun _ _ he => ih he

theorem binary_twins (op : BinaryOp) {args args' : List Expr} (h : List.Forall₂ (Twin ρ ρ') args args') :
    Twins ρ ρ' (Twin ρ ρ') (binary op args) (binary op args') := by
  cases h with
  | nil => exact .throw
  | cons hfirst hrest =>
      cases hrest with
      | nil => exact .throw
      | @cons second second' rest rest' hsecond hrest =>
          have hempty : rest'.isEmpty = rest.isEmpty := by cases hrest <;> rfl
          rw [binary, binary, hempty]
          split
          · exact foldlM_twins op hfirst (.cons hsecond hrest)
          · exact .throw

/-- Ties an accumulator over an operand to the scope around it. -/
theorem tag_twins {scope scope' : Scope} (howns : c'.resolver.owns scope' = true)
    (hscope : ρ scope = ρ' scope') (op : AccumulatorOp) {d d' : Option Expr} (h : d.map (bare ρ) = d'.map (bare ρ')) :
    Twins ρ ρ' (Twin ρ ρ') (do c.resolver.tag (← Build.accumulator op d) scope)
      (do c'.resolver.tag (← Build.accumulator op d') scope') :=
  (accumulator_call_twins op h).bind fun _ _ he => tag_call_twins howns hscope he

theorem some_twins {x y : Build Expr} (h : Twins ρ ρ' (Twin ρ ρ') x y) :
    Twins ρ ρ' (fun d d' => d.map (bare ρ) = d'.map (bare ρ')) (some <$> x) (some <$> y) :=
  h.map fun _ _ he => congrArg some he

theorem expressions_twin {items : List Json}
    (h : ∀ i ∈ items, Twins ρ ρ' (Twin ρ ρ') (expression c i) (expression c' i)) :
    Twins ρ ρ' (List.Forall₂ (Twin ρ ρ')) (expressions c items) (expressions c' items) := by
  induction items with
  | nil => exact .pure .nil
  | cons j rest ih =>
      obtain ⟨hj, hrest⟩ := List.forall_mem_cons.1 h
      exact hj.bind fun _ _ he => (ih hrest).bind fun _ _ hes => .pure (.cons he hes)

theorem fields_twin {members : List (String × Json)}
    (h : ∀ m ∈ members, Twins ρ ρ' (Twin ρ ρ') (expression c m.2) (expression c' m.2)) :
    Twins ρ ρ' (EntriesTwin ρ ρ') (fields c members) (fields c' members) := by
  induction members with
  | nil => exact .pure rfl
  | cons m rest ih =>
      obtain ⟨hm, hrest⟩ := List.forall_mem_cons.1 h
      exact hm.bind fun _ _ he => (ih hrest).bind fun _ _ hfs =>
        .pure (congrArg₂ (fun d ds => (m.1, d) :: ds) he hfs)

theorem accumulator_twins (hc : Around ρ ρ' c c') (name : String) {arg : Json} (op : AccumulatorOp)
    (harg : Twins ρ ρ' (Twin ρ ρ') (expression c arg) (expression c' arg)) :
    Twins ρ ρ' (Twin ρ ρ') (applied c name arg (.accumulator op)) (applied c' name arg (.accumulator op)) := by
  simp only [applied]
  cases hgroup : c.group with
  | none => exact .throw
  | some p =>
      obtain ⟨scope', hgroup', hscope, howns⟩ := hc.exists_group hgroup
      rw [hgroup']
      dsimp only
      by_cases hcount : op = .count
      · rw [if_pos hcount, if_pos hcount]
        exact tag_twins howns hscope op rfl
      · rw [if_neg hcount, if_neg hcount]
        exact (some_twins harg).bind fun _ _ h => tag_twins howns hscope op h

theorem expression_twins (hc : Around ρ ρ' c c') (j : Json) :
    Twins ρ ρ' (Twin ρ ρ') (expression c j) (expression c' j) := by
  induction j using expression_induction with
  | plain j hplain =>
      rw [expression_plain hplain, expression_plain hplain]
      exact literal_twins j
  | field members path hpath =>
      rw [expression_field hpath, expression_field hpath]
      exact field_twins path _
  | count members hfield hcount =>
      rw [expression_operation hfield, operation_count hcount]
      exact .throw
  | operation name arg hname harg hoperand hoperands hmembers =>
      rw [expression_applied hname, expression_applied hname]
      cases Head.ofName name with
      | literal => exact literal_twins arg
      | key => exact groupKey_twins hc
      | document =>
          cases arg with
          | object members =>
              exact (fields_twin (hmembers members.entries rfl)).bind fun _ _ hfs => document_call_twins hfs
          | null | bool | number | string | array => exact .throw
      | unary op => exact hoperand.bind fun _ _ hd => unary_call_twins op hd
      | binary op => exact (expressions_twin hoperands).bind fun _ _ hds => binary_twins op hds
      | accumulator op => exact accumulator_twins hc name op harg
      | extension => exact (expressions_twin hoperands).bind fun _ _ hds => extension_call_twins name hds

end Expressions

section Steps

variable {r r' : Resolver} {input input' : Expr}

/-- Outside of groups there is nothing to be told apart. -/
theorem Around.outside (r r' : Resolver) : Around ρ ρ' ⟨r, none⟩ ⟨r', none⟩ := ⟨nofun, rfl⟩

theorem document_twins {c c' : Surroundings} (hc : Around ρ ρ' c c') (select : Record Json) :
    Twins ρ ρ' (Twin ρ ρ') (document c select) (document c' select) :=
  (fields_twin fun m _ => expression_twins hc m.2).bind fun _ _ hfs => document_call_twins hfs

/-- Scopes that are minted on one level are given the same new one, and resolvers own them. -/
theorem mint_twins (r r' : Resolver) :
    Twins ρ ρ' (fun p p' => ρ p.1 = ρ' p'.1 ∧ p'.2.owns p'.1 = true) r.mint r'.mint := by
  intro s u hlevel p t hrun
  cases hrun
  exact ⟨_, _, rfl, hlevel.mint, hlevel 0, by simp [Resolver.owns]⟩

/-- A node beside the resolver. -/
theorem pair_twins {x y : Build Expr} (h : Twins ρ ρ' (Twin ρ ρ') x y) :
    Twins ρ ρ' (fun p p' => p.1.Twin ρ ρ' p'.1) (do return (← x, r) : Build (Expr × Resolver)) (do return (← y, r')) :=
  h.bind fun _ _ he => .pure he

theorem group_twins (key : Json) (having : Option Json) (select : Record Json) (hinput : input.Twin ρ ρ' input') :
    Twins ρ ρ' (fun p p' => p.1.Twin ρ ρ' p'.1) (group r input key having select)
      (group r' input' key having select) := by
  have hselected {c c' : Surroundings} {kept kept' : Expr} {r r' : Resolver} (hc : Around ρ ρ' c c')
      (hkept : kept.Twin ρ ρ' kept') : Twins ρ ρ' (fun p p' => p.1.Twin ρ ρ' p'.1)
        (do return (← Build.project kept (← document c select), r) : Build (Expr × Resolver))
        (do return (← Build.project kept' (← document c' select), r')) :=
    (document_twins hc select).bind fun _ _ hd => pair_twins (project_call_twins hkept hd)
  unfold group
  by_cases hselect : select.isEmpty = true
  · rw [if_pos hselect]
    exact .throw_bind
  · rw [if_neg hselect, if_neg hselect]
    refine (mint_twins r r').bind fun ⟨scope, r₁⟩ ⟨scope', r₁'⟩ ⟨hscope, howns⟩ => ?_
    refine (expression_twins (.outside r₁ r₁') key).bind fun keyExpr keyExpr' hkey => ?_
    have hc : Around ρ ρ' ⟨r₁, some (scope, keyExpr.type)⟩ ⟨r₁', some (scope', keyExpr'.type)⟩ := by
      constructor
      · intro sc type hsome
        cases hsome
        exact howns
      · show some (ρ scope, keyExpr.type) = some (ρ' scope', keyExpr'.type)
        rw [hscope, hkey.type_eq]
    refine (group_call_twins hinput hkey hscope).bind fun grouped grouped' hgrouped => ?_
    cases having with
    | none => exact hselected hc hgrouped
    | some predicate =>
        exact (expression_twins hc predicate).bind fun _ _ hp =>
          (filter_call_twins hgrouped hp).bind fun _ _ hkept => hselected hc hkept

theorem step_twins (st : Step) (hinput : input.Twin ρ ρ' input') :
    Twins ρ ρ' (fun p p' => p.1.Twin ρ ρ' p'.1) (step r input st) (step r' input' st) := by
  cases st with
  | filter predicate =>
      exact (expression_twins (.outside r r') predicate).bind fun _ _ hp => pair_twins (filter_call_twins hinput hp)
  | group key having select => exact group_twins key having select hinput
  | project fields =>
      exact (document_twins (.outside r r') fields).bind fun _ _ hp => pair_twins (project_call_twins hinput hp)
  | sort keys =>
      exact pair_twins ((Build.sort_makes input keys).twins_kept (Build.sort_makes input' keys)
        (fun _ => by simp [Expr.kind]) (fun _ => rfl) (fun _ _ => rfl) fun _ => .cons hinput .nil)
  | skip count =>
      exact pair_twins ((Build.skip_makes input count).twins_kept (Build.skip_makes input' count)
        (fun _ => by simp [Expr.kind]) (fun _ => rfl) (fun _ _ => rfl) fun _ => .cons hinput .nil)
  | limit count =>
      exact pair_twins ((Build.limit_makes input count).twins_kept (Build.limit_makes input' count)
        (fun _ => by simp [Expr.kind]) (fun _ => rfl) (fun _ _ => rfl) fun _ => .cons hinput .nil)

theorem follow_twins (steps : List Step) (hinput : input.Twin ρ ρ' input') :
    Twins ρ ρ' (Twin ρ ρ') (follow r input steps) (follow r' input' steps) := by
  induction steps generalizing r r' input input' with
  | nil => exact .pure hinput
  | cons st rest ih => exact (step_twins st hinput).bind fun _ _ hnext => ih hnext

theorem build_twins (q : Query) : Twins ρ ρ' (Twin ρ ρ') q.build q.build :=
  have hsource : Twins ρ ρ' (Twin ρ ρ') (Build.source q.collection) (Build.source q.collection) :=
    (Build.source_makes q.collection).twins_kept (Build.source_makes q.collection) (fun _ => by simp [Expr.kind])
      (fun _ => rfl) (fun _ _ => rfl) fun _ => .nil
  hsource.bind fun _ _ h => follow_twins q.steps h

/-- The scopes with numbers that are higher by some number. -/
def shift (k : Nat) (scope : Scope) : Scope := ⟨scope.number + k⟩

theorem shift_injective (k : Nat) : Function.Injective (shift k) := by
  rintro ⟨m⟩ ⟨n⟩ h
  exact congrArg Scope.mk (Nat.add_right_cancel (congrArg Scope.number h))

/-- A query that builds from one supply builds from any other one, to a twin. -/
theorem exists_twin_of_build {q : Query} {root : Expr} {s t : Supply} (h : q.build.run s = .ok (root, t)) (u : Supply) :
    ∃ root' v, q.build.run u = .ok (root', v) ∧ root.Twin (shift u.nextScope) (shift s.nextScope) root' := by
  have hlevel : s.Level (shift u.nextScope) (shift s.nextScope) u := fun j =>
    congrArg Scope.mk (show s.nextScope + j + u.nextScope = u.nextScope + j + s.nextScope by omega)
  obtain ⟨root', v, hrun, -, htwin⟩ := build_twins q s u hlevel root t h
  exact ⟨root', v, hrun, htwin⟩

end Steps

end Query

end Aggregation
