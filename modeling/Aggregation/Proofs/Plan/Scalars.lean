import Aggregation.Proofs.Expr.Scalar
import Aggregation.Proofs.Meaning.Expressions
import Aggregation.Proofs.Plan.Binding
import Aggregation.Proofs.Record

/-!
Bound scalars. A scalar whose accumulators have been bound to the outputs of a plan has no accumulator, and on the
document of a group it has the value that the scalar had over the rows of the group.
-/

namespace Aggregation.Binding

open Aggregation.Expr (Scalar)
open GroupPlan (Provides)

variable {I : Interpretation} {root e e' : Expr} {plans : List GroupPlan} {tied : Scope → Prop} {ok : String → Prop}
  {members members' : List Document} {row row' : Document}

/-- A node that is neither an accumulator nor a group keeps its payload. -/
theorem Bound.exists_withChildren (h : Bound root plans e e') (hc : e.kind ≠ .correlated) (hg : e.kind ≠ .group) :
    ∃ i children, e' = e.withChildren i children ∧ List.Forall₂ (Bound root plans) e.children children := by
  cases h with
  | kept _ _ i h => exact ⟨i, _, rfl, h⟩
  | correlated => exact absurd rfl hc
  | group => exact absurd rfl hg

theorem Bound.exists_withChild {c : Expr} (h : Bound root plans e e') (hc : e.kind ≠ .correlated)
    (hg : e.kind ≠ .group) (hchildren : e.children = [c]) :
    ∃ i c', e' = e.withChildren i [c'] ∧ Bound root plans c c' := by
  obtain ⟨i, children, rfl, hall⟩ := h.exists_withChildren hc hg
  rw [hchildren] at hall
  obtain ⟨c', rest, hc', hrest, rfl⟩ := List.forall₂_cons_left_iff.1 hall
  rw [List.forall₂_nil_left_iff.1 hrest]
  exact ⟨i, c', rfl, hc'⟩

theorem Bound.exists_withTwoChildren {c d : Expr} (h : Bound root plans e e') (hc : e.kind ≠ .correlated)
    (hg : e.kind ≠ .group) (hchildren : e.children = [c, d]) :
    ∃ i c' d', e' = e.withChildren i [c', d'] ∧ Bound root plans c c' ∧ Bound root plans d d' := by
  obtain ⟨i, children, rfl, hall⟩ := h.exists_withChildren hc hg
  rw [hchildren] at hall
  obtain ⟨c', rest, hc', hrest, rfl⟩ := List.forall₂_cons_left_iff.1 hall
  obtain ⟨d', rest, hd', hnil, rfl⟩ := List.forall₂_cons_left_iff.1 hrest
  rw [List.forall₂_nil_left_iff.1 hnil]
  exact ⟨i, c', d', rfl, hc', hd'⟩

theorem exists_of_forall₂ {α β : Type} {R : α → β → Prop} {xs : List α} {ys : List β} (h : List.Forall₂ R xs ys)
    {y : β} (hy : y ∈ ys) : ∃ x ∈ xs, R x y := by
  induction h with
  | nil => cases hy
  | cons hR _ ih =>
      rcases List.mem_cons.1 hy with rfl | hy
      · exact ⟨_, List.mem_cons_self, hR⟩
      · obtain ⟨x, hx, hR⟩ := ih hy
        exact ⟨x, List.mem_cons_of_mem _ hx, hR⟩

/-- Named trees and the trees that they become under their names. -/
def FieldsBound (root : Expr) (plans : List GroupPlan) (fields fields' : List (String × Expr)) : Prop :=
  List.Forall₂ (fun f g => g.1 = f.1 ∧ Bound root plans f.2 g.2) fields fields'

theorem FieldsBound.of_children {fields : List (String × Expr)} {children : List Expr}
    (h : List.Forall₂ (Bound root plans) (fields.map Prod.snd) children) :
    FieldsBound root plans fields ((fields.map Prod.fst).zip children) := by
  induction fields generalizing children with
  | nil => exact .nil
  | cons f rest ih =>
      obtain ⟨c, cs, hc, hcs, rfl⟩ := List.forall₂_cons_left_iff.1 h
      exact .cons ⟨rfl, hc⟩ (ih hcs)

theorem FieldsBound.map_fst {fields fields' : List (String × Expr)} (h : FieldsBound root plans fields fields') :
    fields'.map Prod.fst = fields.map Prod.fst := by
  induction h with
  | nil => rfl
  | cons hf _ ih => rw [List.map_cons, List.map_cons, hf.1, ih]

theorem FieldsBound.fieldValues_eq {fields fields' : List (String × Expr)} (h : FieldsBound root plans fields fields')
    (hvalue : ∀ f ∈ fields, ∀ d, Bound root plans f.2 d → d.value I members' row' = f.2.value I members row) :
    Expr.fieldValues I members' row' fields' = Expr.fieldValues I members row fields := by
  induction h with
  | nil => rfl
  | @cons f g fs gs hf _ ih =>
      obtain ⟨name, d⟩ := f
      obtain ⟨name', d'⟩ := g
      obtain ⟨hname, hd⟩ : name' = name ∧ Bound root plans d d' := hf
      rw [Expr.fieldValues, Expr.fieldValues, hname, hvalue (name, d) List.mem_cons_self d' hd,
        ih fun f hf => hvalue f (List.mem_cons_of_mem _ hf)]

theorem Bound.exists_document {i : NodeInfo} {fields : List (String × Expr)}
    (h : Bound root plans (.document i fields) e') :
    ∃ j fields', e' = .document j fields' ∧ FieldsBound root plans fields fields' := by
  obtain ⟨j, children, rfl, hall⟩ := h.exists_withChildren nofun nofun
  exact ⟨j, _, rfl, .of_children hall⟩

section Names

theorem hasEmptyPart_eq_false {cs : List Char} (h : '.' ∉ cs) (fresh : Bool) (hne : cs ≠ [] ∨ fresh = false) :
    Build.hasEmptyPart fresh cs = false := by
  induction cs generalizing fresh with
  | nil => exact hne.resolve_left (not_not.2 rfl)
  | cons c rest ih =>
      obtain ⟨hc, hrest⟩ := List.ne_and_not_mem_of_not_mem_cons h
      rw [Build.hasEmptyPart]
      · exact ih hrest false (.inr rfl)
      · exact fun heq => hc heq.symm

theorem not_mem_of_isOutputName {name : String} (h : Build.isOutputName name = true) : '.' ∉ name.toList := by
  simp only [Build.isOutputName, Bool.and_eq_true, Bool.not_eq_true', List.contains_eq_mem, decide_eq_false_iff_not]
    at h
  exact h.1.2

/-- The name of an output is a path. -/
theorem isPath_of_isOutputName {name : String} (h : Build.isOutputName name = true) : Build.isPath name = true := by
  have hdot := not_mem_of_isOutputName h
  simp only [Build.isOutputName, Bool.and_eq_true, Bool.not_eq_true'] at h
  obtain ⟨⟨⟨hempty, hdollar⟩, -⟩, -⟩ := h
  have hne : name.toList ≠ [] := fun hnil => by
    rw [String.toList_eq_nil_iff.1 hnil] at hempty
    cases hempty
  rw [Build.isPath, hdollar, hasEmptyPart_eq_false hdot true (.inl hne)]
  rfl

end Names

/-- A bound scalar has no accumulator. -/
theorem Bound.scalar (hs : Scalar tied ok e)
    (hnames : ∀ p ∈ plans, tied p.scope → ∀ f ∈ p.outputs, Build.isOutputName f.1 = true)
    (hb : Bound root plans e e') : Scalar (fun _ => False) (fun _ => True) e' := by
  have hfield : ∀ {i : NodeInfo} {scope : Scope} {inner d : Expr}, tied scope →
      Bound root plans (.correlated i scope inner) d → Scalar (fun _ => False) (fun _ => True) d := by
    intro i scope inner d hscope hd
    cases hd with
    | kept hc => exact absurd rfl hc
    | correlated _ j hp heq hprovides =>
        obtain ⟨f, hf, -⟩ := hprovides
        exact .field j (isPath_of_isOutputName (hnames _ hp (heq ▸ hscope) _ hf)) trivial
  induction hs generalizing e' with
  | constant i v =>
      obtain ⟨j, children, rfl, -⟩ := hb.exists_withChildren nofun nofun
      exact .constant j v
  | field i hpath _ =>
      obtain ⟨j, children, rfl, -⟩ := hb.exists_withChildren nofun nofun
      exact .field j hpath trivial
  | binary i op _ _ ihleft ihright =>
      obtain ⟨j, left', right', rfl, hleft, hright⟩ := hb.exists_withTwoChildren nofun nofun rfl
      exact .binary j op (ihleft hleft) (ihright hright)
  | unary i op _ ih =>
      obtain ⟨j, operand', rfl, hoperand⟩ := hb.exists_withChild nofun nofun rfl
      exact .unary j op (ih hoperand)
  | document i hdistinct hgood _ ih =>
      obtain ⟨j, fields', rfl, hfields⟩ := hb.exists_document
      refine .document j (by rwa [hfields.map_fst]) (fun g hg => ?_) fun g hg => ?_
      · obtain ⟨f, hf, hname, -⟩ := exists_of_forall₂ hfields hg
        exact hname ▸ hgood f hf
      · obtain ⟨f, hf, -, hbound⟩ := exists_of_forall₂ hfields hg
        exact ih f hf hbound
  | count i j hscope => exact hfield hscope hb
  | accumulator i j _ hscope _ _ => exact hfield hscope hb
  | @extension i name args _ ih =>
      obtain ⟨j, args', rfl, hargs⟩ := hb.exists_withChildren nofun nofun
      refine .extension j name fun d' hd' => ?_
      obtain ⟨d, hd, hbound⟩ := exists_of_forall₂ hargs hd'
      exact ih d hd hbound

/-- A bound scalar has the value of the scalar, where paths lead to the same values and outputs are the values of
their accumulators. -/
theorem Bound.value_eq (hs : Scalar tied ok e) (hrow : ∀ path, ok path → I.lookup row' path = I.lookup row path)
    (houtputs : ∀ p ∈ plans, tied p.scope → ∀ name inner, Provides p.outputs name inner →
      I.lookup row' name = inner.value I members row)
    (hb : Bound root plans e e') : e'.value I members' row' = e.value I members row := by
  have hfield : ∀ {i : NodeInfo} {scope : Scope} {inner d : Expr}, tied scope →
      Bound root plans (.correlated i scope inner) d →
        d.value I members' row' = Expr.value I members row (.correlated i scope inner) := by
    intro i scope inner d hscope hd
    cases hd with
    | kept hc => exact absurd rfl hc
    | correlated _ j hp heq hprovides => exact houtputs _ hp (heq ▸ hscope) _ inner hprovides
  induction hs generalizing e' with
  | constant i v =>
      obtain ⟨j, children, rfl, -⟩ := hb.exists_withChildren nofun nofun
      rfl
  | field i _ hok =>
      obtain ⟨j, children, rfl, -⟩ := hb.exists_withChildren nofun nofun
      exact hrow _ hok
  | binary i op _ _ ihleft ihright =>
      obtain ⟨j, left', right', rfl, hleft, hright⟩ := hb.exists_withTwoChildren nofun nofun rfl
      rw [Expr.withChildren, Expr.value, Expr.value, ihleft hleft, ihright hright]
  | unary i op _ ih =>
      obtain ⟨j, operand', rfl, hoperand⟩ := hb.exists_withChild nofun nofun rfl
      rw [Expr.withChildren, Expr.value, Expr.value, ih hoperand]
  | document i _ _ _ ih =>
      obtain ⟨j, fields', rfl, hfields⟩ := hb.exists_document
      rw [Expr.value, Expr.value, hfields.fieldValues_eq fun f hf d hd => ih f hf hd]
  | count i j hscope => exact hfield hscope hb
  | accumulator i j _ hscope _ _ => exact hfield hscope hb
  | extension i name _ _ =>
      obtain ⟨j, args', rfl, -⟩ := hb.exists_withChildren nofun nofun
      rfl

section Rows

variable {outputs : List (String × Expr)} {key : Value}

theorem Fits.areOutputNames {scope : Scope} {p : GroupPlan} (h : Fits root scope [] p) : AreOutputNames p.outputs := by
  rcases h.names with hnil | hnames
  · rw [hnil]
    exact ⟨nofun, List.nodup_singleton _⟩
  · exact hnames

theorem map_fst_fieldValues (fields : List (String × Expr)) :
    (Expr.fieldValues I members row fields).map Prod.fst = fields.map Prod.fst := by
  rw [Expr.fieldValues_eq_map, List.map_map]
  rfl

/-- A path that begins with no output reads the key of a group, or nothing. -/
theorem lookup_groupRow {path : String} (h : ∀ first ∈ (segments path).head?, first ∉ outputs.map Prod.fst) :
    I.lookup (Expr.groupRow I outputs key members) path = I.lookup (keyRow key) path := by
  refine I.lookup_congr fun first hfirst => ?_
  have hnone : (Expr.fieldValues I members (keyRow key) outputs).lookup first = none := by
    refine List.lookup_eq_none_iff.2 fun f hf => bne_iff_ne.2 fun heq => h first hfirst ?_
    have hmem : first ∈ (Expr.fieldValues I members (keyRow key) outputs).map Prod.fst :=
      List.mem_map.2 ⟨f, hf, heq.symm⟩
    rwa [map_fst_fieldValues] at hmem
  show List.lookup first (("_id", key) :: Expr.fieldValues I members (keyRow key) outputs)
    = List.lookup first [("_id", key)]
  rw [List.lookup_cons, List.lookup_cons, hnone]
  rfl

/-- An output of a group is read under its name. -/
theorem lookup_groupRow_output (hnames : AreOutputNames outputs) {name : String} {d : Expr} (h : (name, d) ∈ outputs) :
    I.lookup (Expr.groupRow I outputs key members) name = d.value I members (keyRow key) := by
  refine I.lookup_name (not_mem_of_isOutputName (hnames.1 _ h)) (Record.get?_of_mem ?_ ?_)
  · show ("_id" :: (Expr.fieldValues I members (keyRow key) outputs).map Prod.fst).Nodup
    rw [map_fst_fieldValues]
    exact hnames.2
  · refine List.mem_cons_of_mem _ ?_
    rw [Expr.fieldValues_eq_map]
    exact List.mem_map.2 ⟨(name, d), h, rfl⟩

/-- A bound scalar has on the document of a group the value that the scalar has over the rows of the group. -/
theorem Bound.value_groupRow {p : GroupPlan} (hs : Scalar tied ok e) (hplans : (plans.map GroupPlan.scope).Nodup)
    (hp : p ∈ plans) (htied : ∀ scope, tied scope → scope = p.scope) (hnames : AreOutputNames p.outputs)
    (hok : ∀ path, ok path → ∀ first ∈ (segments path).head?, first ∉ p.names) (hb : Bound root plans e e') :
    e'.value I members' (Expr.groupRow I p.outputs key members) = e.value I members (keyRow key) := by
  refine hb.value_eq hs (fun path hpath => lookup_groupRow (hok path hpath)) fun q hq hscope name inner hprovides => ?_
  have hsame : q = p := List.inj_on_of_nodup_map hplans hq hp (htied _ hscope)
  obtain ⟨d, hd, hstructure⟩ := hprovides
  rw [lookup_groupRow_output hnames (hsame ▸ hd), Expr.value_eq_of_sameStructure I hstructure]

end Rows

end Aggregation.Binding
