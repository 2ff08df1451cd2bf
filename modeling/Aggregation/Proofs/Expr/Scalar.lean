import Aggregation.Proofs.Expr.Fresh

/-!
Scalars as queries build them: constants, fields of good paths, operators, documents of distinct good names, and
accumulators that are tied to a scope. `tied` tells which scopes there are and `ok` which paths.
-/

namespace Aggregation.Expr

inductive Scalar (tied : Scope → Prop) (ok : String → Prop) : Expr → Prop
  | constant (i : NodeInfo) (v : Value) : Scalar tied ok (.constant i v)
  | field (i : NodeInfo) {path : String} (hpath : Build.isPath path = true) (hok : ok path) :
      Scalar tied ok (.field i path)
  | binary (i : NodeInfo) (op : BinaryOp) {left right : Expr} (hleft : Scalar tied ok left)
      (hright : Scalar tied ok right) : Scalar tied ok (.binary i op left right)
  | unary (i : NodeInfo) (op : UnaryOp) {operand : Expr} (h : Scalar tied ok operand) :
      Scalar tied ok (.unary i op operand)
  | document (i : NodeInfo) {fields : List (String × Expr)} (hdistinct : (fields.map Prod.fst).Nodup)
      (hnames : ∀ f ∈ fields, Build.isOutputName f.1 = true) (hfields : ∀ f ∈ fields, Scalar tied ok f.2) :
      Scalar tied ok (.document i fields)
  | count (i j : NodeInfo) {scope : Scope} (hscope : tied scope) :
      Scalar tied ok (.correlated i scope (.accumulator j .count none))
  | accumulator (i j : NodeInfo) {op : AccumulatorOp} {scope : Scope} {operand : Expr} (hop : op ≠ .count)
      (hscope : tied scope) (h : Scalar tied ok operand) :
      Scalar tied ok (.correlated i scope (.accumulator j op (some operand)))
  | extension (i : NodeInfo) (name : String) {args : List Expr} (hargs : ∀ e ∈ args, Scalar tied ok e) :
      Scalar tied ok (.extension i name args)

variable {tied tied' : Scope → Prop} {ok ok' : String → Prop} {e : Expr}

theorem Scalar.mono (htied : ∀ scope, tied scope → tied' scope) (hok : ∀ path, ok path → ok' path)
    (h : Scalar tied ok e) : Scalar tied' ok' e := by
  induction h with
  | constant i v => exact .constant i v
  | field i hpath hpok => exact .field i hpath (hok _ hpok)
  | binary i op _ _ ihleft ihright => exact .binary i op ihleft ihright
  | unary i op _ ih => exact .unary i op ih
  | document i hdistinct hnames _ ih => exact .document i hdistinct hnames ih
  | count i j hscope => exact .count i j (htied _ hscope)
  | accumulator i j hop hscope _ ih => exact .accumulator i j hop (htied _ hscope) ih
  | extension i name _ ih => exact .extension i name ih

/-- The accumulators of a scalar that are tied to scopes are scalars. -/
theorem Scalar.of_mem_visible {i : NodeInfo} {scope : Scope} {inner : Expr} (hs : Scalar tied ok e)
    (h : Expr.correlated i scope inner ∈ e.visible) : Scalar tied ok (.correlated i scope inner) := by
  have hchild : ∀ {d : Expr}, Expr.correlated i scope inner ∈ d.visible → d.kind ≠ .correlated →
      ∃ c ∈ d.children, Expr.correlated i scope inner ∈ c.visible := by
    intro d hd hk
    rcases exists_child_of_mem_visible hd hk with rfl | hd
    · exact absurd rfl hk
    · exact hd
  induction hs with
  | constant | field =>
      obtain ⟨c, hc, -⟩ := hchild h nofun
      exact absurd hc List.not_mem_nil
  | @binary j op left right _ _ ihleft ihright =>
      obtain ⟨c, hc, hmem⟩ := hchild h nofun
      rcases List.mem_pair.1 hc with rfl | rfl
      · exact ihleft hmem
      · exact ihright hmem
  | @unary j op operand _ ih =>
      obtain ⟨c, hc, hmem⟩ := hchild h nofun
      rw [List.mem_singleton.1 hc] at hmem
      exact ih hmem
  | @document j fields _ _ _ ih =>
      obtain ⟨c, hc, hmem⟩ := hchild h nofun
      obtain ⟨f, hf, rfl⟩ := List.mem_map.1 hc
      exact ih f hf hmem
  | count j k hscope =>
      rw [visible_correlated] at h
      cases List.mem_singleton.1 h
      exact .count i k hscope
  | accumulator j k hop hscope hoperand =>
      rw [visible_correlated] at h
      cases List.mem_singleton.1 h
      exact .accumulator i k hop hscope hoperand
  | @extension j name args _ ih =>
      obtain ⟨c, hc, hmem⟩ := hchild h nofun
      exact ih c hc hmem

end Aggregation.Expr
