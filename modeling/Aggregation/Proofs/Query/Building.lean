import Aggregation.Proofs.Expr.Fresh
import Aggregation.Proofs.Expr.Scalar
import Aggregation.Proofs.Meaning.Expressions
import Aggregation.Proofs.Meaning.Queries
import Aggregation.Proofs.Query.Operations

/-!
Expressions of queries and the terms that they are built from. A node that is built for an expression has the value of
its term, where the key of the group is what `_id` is in the row in hand. Its accumulators are tied to the scope of the
grouping around it, and all of its nodes have new serials.
-/

namespace Aggregation.Query

open Aggregation.Expr (Scalar Grown AllGrown)
open Build (Minted run_bind_eq_ok run_pure_eq_ok run_throw_ne_ok)

/-- The scopes to which accumulators may be tied. -/
def Surrounding (c : Surroundings) (scope : Scope) : Prop := ∃ type, c.group = some (scope, type)

/-- The key of the grouping around an expression, if there is one, is what `_id` is in a row. -/
def ReadsKey (c : Surroundings) (I : Interpretation) (key : Document → Value) : Prop :=
  c.group ≠ none → ∀ row, key row = I.lookup row "_id"

variable {c : Surroundings} {s t u : Supply} {e : Expr}

/-- An expression that is built from one supply up to another stands for a term. -/
structure Stands (c : Surroundings) (x : Term) (s t : Supply) (e : Expr) : Prop where
  grown : Grown s t e
  scopes : t.nextScope = s.nextScope
  scalar : ∀ ok : String → Prop, ok "_id" → (∀ p ∈ x.paths, ok p) → Scalar (Surrounding c) ok e
  value : ∀ I key members row, ReadsKey c I key → e.value I members row = x.value I key members row

/-- Expressions that are built in turn stand for terms. -/
structure AllStand (c : Surroundings) (xs : List Term) (s t : Supply) (es : List Expr) : Prop where
  grown : AllGrown s t es
  scopes : t.nextScope = s.nextScope
  scalar : ∀ ok : String → Prop, ok "_id" → (∀ p ∈ Term.operandPaths xs, ok p) →
    ∀ e ∈ es, Scalar (Surrounding c) ok e
  values : ∀ I key members row, ReadsKey c I key →
    es.map (·.value I members row) = Term.values I key members row xs

/-- Named expressions that are built in turn stand for named terms. -/
structure FieldsStand (c : Surroundings) (xs : List (String × Term)) (s t : Supply) (fs : List (String × Expr)) :
    Prop where
  grown : AllGrown s t (fs.map Prod.snd)
  scopes : t.nextScope = s.nextScope
  scalar : ∀ ok : String → Prop, ok "_id" → (∀ p ∈ Term.fieldPaths xs, ok p) →
    ∀ f ∈ fs, Scalar (Surrounding c) ok f.2
  values : ∀ I key members row, ReadsKey c I key →
    Expr.fieldValues I members row fs = Term.fieldValues I key members row xs

/-- A node without children. -/
theorem grown_leaf (hchildren : e.children = []) (hm : Minted s t e.info) : Grown s t e :=
  AllGrown.nil.grown hchildren hm

theorem nextScope_of_minted {i : NodeInfo} (hm : Minted s t i) : t.nextScope = s.nextScope := by
  rw [hm.2]
  rfl

/-- The term of a constant. -/
def literalTerm (j : Json) : Term :=
  match ExtendedJson.toValue j with
  | .ok value => .literal value
  | .error _ => .foreign []

theorem stands_literal {j : Json} (h : (literal j).run s = .ok (e, t)) : Stands c (literalTerm j) s t e := by
  unfold literal at h
  cases hv : ExtendedJson.toValue j with
  | ok v =>
      rw [hv] at h
      obtain ⟨i, rfl, hm⟩ := Build.constant_eq_ok h
      rw [literalTerm, hv]
      exact ⟨grown_leaf rfl hm, nextScope_of_minted hm, fun ok _ _ => .constant i v, fun _ _ _ _ _ => rfl⟩
  | error e =>
      rw [hv] at h
      exact absurd h run_throw_ne_ok

theorem stands_path {path : String} {type : ResultType} (h : (Build.field path type).run s = .ok (e, t)) :
    Stands c (.field path) s t e := by
  obtain ⟨hpath, i, rfl, hm⟩ := Build.field_eq_ok h
  exact ⟨grown_leaf rfl hm, nextScope_of_minted hm,
    fun ok _ hok => .field i hpath (hok path (List.mem_singleton.2 rfl)), fun _ _ _ _ _ => rfl⟩

theorem stands_field {path : Json} {type : Option Json} (h : (field path type).run s = .ok (e, t)) :
    ∃ p, path = .string p ∧ Stands c (.field p) s t e := by
  unfold field at h
  split at h
  · next p =>
      refine ⟨p, rfl, ?_⟩
      split at h
      · exact stands_path h
      · split at h
        · exact stands_path h
        · exact absurd h run_throw_ne_ok
      · exact absurd h run_throw_ne_ok
  · exact absurd h run_throw_ne_ok

theorem stands_key (h : (groupKey c).run s = .ok (e, t)) : Stands c .key s t e := by
  unfold groupKey at h
  split at h
  · next scope type hgroup =>
      obtain ⟨hpath, i, rfl, hm⟩ := Build.field_eq_ok h
      refine ⟨grown_leaf rfl hm, nextScope_of_minted hm, fun ok hid _ => .field i hpath hid, ?_⟩
      intro I key members row hkey
      exact (hkey (by rw [hgroup]; exact nofun) row).symm
  · exact absurd h run_throw_ne_ok

theorem stands_document {xs : List (String × Term)} {fs : List (String × Expr)} (hfs : FieldsStand c xs s t fs)
    (h : (Build.document fs).run t = .ok (e, u)) : Stands c (.document xs) s u e := by
  obtain ⟨hdistinct, hnames, i, rfl, hm⟩ := Build.document_eq_ok h
  refine ⟨hfs.grown.grown rfl hm, (nextScope_of_minted hm).trans hfs.scopes, fun ok hid hok => ?_, ?_⟩
  · exact .document i hdistinct hnames (hfs.scalar ok hid hok)
  · intro I key members row hkey
    rw [Expr.value, Term.value, hfs.values I key _ _ hkey]

theorem stands_unary {x : Term} {op : UnaryOp} {operand : Expr} (hx : Stands c x s t operand)
    (h : (Build.unary op operand).run t = .ok (e, u)) : Stands c (.unary op x) s u e := by
  obtain ⟨i, rfl, hm⟩ := Build.unary_eq_ok h
  refine ⟨(AllGrown.singleton hx.grown).grown rfl hm, (nextScope_of_minted hm).trans hx.scopes,
    fun ok hid hok => .unary i op (hx.scalar ok hid hok), fun I key members row hkey => ?_⟩
  rw [Expr.value, Term.value, hx.value I key _ _ hkey]

/-- Operands that are joined from the left, by nodes that are built after all of them. -/
theorem exists_of_foldlM {op : BinaryOp} {first : Expr} {rest : List Expr} (hgrown : AllGrown s t (first :: rest))
    (h : (rest.foldlM (Build.binary op) first).run t = .ok (e, u)) :
    Grown s u e ∧ u.nextScope = t.nextScope ∧
      (∀ tied ok, (∀ d ∈ first :: rest, Scalar tied ok d) → Scalar tied ok e) ∧
      ∀ I members row, e.value I members row
        = (rest.map (·.value I members row)).foldl (I.binary op) (first.value I members row) := by
  -- what has been joined so far is the first operand of what is left
  induction rest generalizing first t with
  | nil =>
      obtain ⟨rfl, rfl⟩ := run_pure_eq_ok.1 h
      obtain ⟨hle, hfresh⟩ := hgrown
      rw [List.flatMap_cons, List.flatMap_nil, List.append_nil] at hfresh
      exact ⟨⟨hle, hfresh⟩, rfl, fun _ _ hs => hs e List.mem_cons_self, fun _ _ _ => rfl⟩
  | cons second rest ih =>
      rw [List.foldlM_cons] at h
      obtain ⟨node, t', hnode, h⟩ := run_bind_eq_ok.1 h
      obtain ⟨i, rfl, hserial, rfl⟩ := Build.binary_eq_ok hnode
      have hnext : AllGrown s t.next (.binary i op first second :: rest) := by
        obtain ⟨hle, hfresh⟩ := hgrown
        refine ⟨Nat.le_succ_of_le hle, ?_⟩
        have hcons := hfresh.cons (e := .binary i op first second) hserial hle
        rw [List.flatMap_cons, List.flatMap_cons] at hcons
        rw [List.flatMap_cons, Expr.occurrences_eq]
        show Fresh _ _ (_ :: ([first, second].flatMap Expr.occurrences ++ _))
        rwa [List.flatMap_cons, List.flatMap_cons, List.flatMap_nil, List.append_nil, List.append_assoc]
      obtain ⟨hgrown', hscope, hscalar, hvalue⟩ := ih hnext h
      refine ⟨hgrown', hscope, fun tied ok hs => hscalar tied ok fun d hd => ?_, hvalue⟩
      obtain ⟨hfirst, hrest⟩ := List.forall_mem_cons.1 hs
      obtain ⟨hsecond, hrest⟩ := List.forall_mem_cons.1 hrest
      exact List.forall_mem_cons.2 ⟨.binary i op hfirst hsecond, hrest⟩ d hd

theorem stands_binary {op : BinaryOp} {xs : List Term} {args : List Expr} (hargs : AllStand c xs s t args)
    (h : (binary op args).run t = .ok (e, u)) : Stands c (.binary op xs) s u e := by
  unfold binary at h
  split at h
  · next first second rest =>
      split at h
      · obtain ⟨hgrown, hscope, hscalar, hvalue⟩ := exists_of_foldlM hargs.grown h
        refine ⟨hgrown, hscope.trans hargs.scopes,
          fun ok hid hok => hscalar _ ok (hargs.scalar ok hid hok), fun I key members row hkey => ?_⟩
        rw [hvalue, Term.value, ← hargs.values I key _ _ hkey]
        rfl
      · exact absurd h run_throw_ne_ok
  · exact absurd h run_throw_ne_ok

theorem stands_count {scope : Scope} {i k : NodeInfo} (hc : Surrounding c scope) (hk : Minted s t k)
    (hi : Minted t u i) : Stands c .count s u (.correlated i scope (.accumulator k .count none)) :=
  ⟨(AllGrown.singleton (grown_leaf rfl hk)).grown rfl hi, (nextScope_of_minted hi).trans (nextScope_of_minted hk),
    fun _ _ _ => .count i k hc, fun _ _ _ _ _ => rfl⟩

theorem stands_accumulator {scope : Scope} {i k : NodeInfo} {operand : Expr} {op : AccumulatorOp} {x : Term}
    {t' : Supply} (hop : op ≠ .count) (hc : Surrounding c scope) (hx : Stands c x s t operand) (hk : Minted t t' k)
    (hi : Minted t' u i) :
    Stands c (.accumulator op x) s u (.correlated i scope (.accumulator k op (some operand))) := by
  refine ⟨(AllGrown.singleton ((AllGrown.singleton hx.grown).grown rfl hk)).grown rfl hi,
    ((nextScope_of_minted hi).trans (nextScope_of_minted hk)).trans hx.scopes,
    fun ok hid hok => .accumulator i k hop hc (hx.scalar ok hid hok), fun I key members row hkey => ?_⟩
  rw [Expr.value, Expr.value, Term.value]
  simp only [hx.value I key _ _ hkey]

theorem stands_extension {xs : List Term} {name : String} {args : List Expr} (hargs : AllStand c xs s t args)
    (h : (Build.extension name args).run t = .ok (e, u)) : Stands c (.foreign xs) s u e := by
  obtain ⟨i, rfl, hm⟩ := Build.extension_eq_ok h
  exact ⟨hargs.grown.grown rfl hm, (nextScope_of_minted hm).trans hargs.scopes,
    fun ok hid hok => .extension i name (hargs.scalar ok hid hok), fun _ _ _ _ _ => rfl⟩

theorem AllStand.nil : AllStand c [] s s [] := ⟨.nil, rfl, nofun, fun _ _ _ _ _ => rfl⟩

theorem AllStand.cons {x : Term} {xs : List Term} {es : List Expr} (hx : Stands c x s t e)
    (hxs : AllStand c xs t u es) : AllStand c (x :: xs) s u (e :: es) := by
  refine ⟨.cons hx.grown hxs.grown, hxs.scopes.trans hx.scopes, fun ok hid hok => ?_, fun I key members row hkey => ?_⟩
  · obtain ⟨hfirst, hrest⟩ := List.forall_mem_append.1 hok
    exact List.forall_mem_cons.2 ⟨hx.scalar ok hid hfirst, hxs.scalar ok hid hrest⟩
  · rw [List.map_cons, hx.value I key _ _ hkey, hxs.values I key _ _ hkey, Term.values]

theorem FieldsStand.nil : FieldsStand c [] s s [] := ⟨.nil, rfl, nofun, fun _ _ _ _ _ => rfl⟩

theorem FieldsStand.cons {x : Term} {xs : List (String × Term)} {fs : List (String × Expr)} (name : String)
    (hx : Stands c x s t e) (hxs : FieldsStand c xs t u fs) :
    FieldsStand c ((name, x) :: xs) s u ((name, e) :: fs) := by
  refine ⟨.cons hx.grown hxs.grown, hxs.scopes.trans hx.scopes, fun ok hid hok => ?_, fun I key members row hkey => ?_⟩
  · obtain ⟨hfirst, hrest⟩ := List.forall_mem_append.1 hok
    exact List.forall_mem_cons.2 ⟨hx.scalar ok hid hfirst, hxs.scalar ok hid hrest⟩
  · rw [Expr.fieldValues, Term.fieldValues, hx.value I key _ _ hkey, hxs.values I key _ _ hkey]

/-- The term of an operation, by what it is. -/
def Head.term (arg : Json) : Head → Term
  | .literal => literalTerm arg
  | .key => .key
  | .document =>
    match arg with
    | .object ⟨members⟩ => .document (fieldTerms members)
    | _ => .foreign []
  | .unary op => .unary op (Query.term (operand arg))
  | .binary op => .binary op (terms (operands arg))
  | .accumulator .count => .count
  | .accumulator op => .accumulator op (Query.term arg)
  | .extension => .foreign (terms (operands arg))

theorem operationTerm_eq_term (name : String) (arg : Json) :
    operationTerm [(name, arg)] = (Head.ofName name).term arg := by
  unfold operationTerm Head.ofName
  split_ifs
  · rfl
  · rfl
  · rfl
  cases UnaryOp.ofName? name with
  | some op =>
      simp only [Head.term]
      split
      · rfl
      · next h => rw [operand_eq_self h]
  | none =>
      cases BinaryOp.ofName? name with
      | some op => cases arg <;> rfl
      | none =>
          cases AccumulatorOp.ofName? name with
          | some op => cases op <;> rfl
          | none => cases arg <;> rfl

theorem Head.term_accumulator {op : AccumulatorOp} (h : op ≠ .count) (arg : Json) :
    (Head.accumulator op).term arg = .accumulator op (Query.term arg) := by
  cases op <;> first | rfl | exact absurd rfl h

theorem term_plain {j : Json} (h : ∀ members, j ≠ .object members) : term j = literalTerm j := by
  cases j with
  | object members => exact absurd rfl (h members)
  | null | bool | number | string | array =>
      rw [term]
      · rfl
      · exact fun _ => Json.noConfusion

/-- What is built for an expression, if anything is, stands for its term. -/
def StandsBuilt (c : Surroundings) (j : Json) : Prop :=
  ∀ s t e, (expression c j).run s = .ok (e, t) → Stands c (term j) s t e

theorem stands_items {items : List Json} (h : ∀ i ∈ items, StandsBuilt c i) {es : List Expr}
    (hrun : (expressions c items).run s = .ok (es, t)) : AllStand c (terms items) s t es := by
  refine expressions_induction
    (P := fun items s es t => (∀ i ∈ items, StandsBuilt c i) → AllStand c (terms items) s t es)
    (fun _ _ => .nil) (fun he ih h => ?_) hrun h
  obtain ⟨hj, hrest⟩ := List.forall_mem_cons.1 h
  exact .cons (hj _ _ _ he) (ih hrest)

theorem stands_fields {members : List (String × Json)} (h : ∀ m ∈ members, StandsBuilt c m.2)
    {fs : List (String × Expr)} (hrun : (fields c members).run s = .ok (fs, t)) :
    FieldsStand c (fieldTerms members) s t fs := by
  refine fields_induction
    (P := fun members s fs t => (∀ m ∈ members, StandsBuilt c m.2) → FieldsStand c (fieldTerms members) s t fs)
    (fun _ _ => .nil) (fun he ih h => ?_) hrun h
  obtain ⟨hm, hrest⟩ := List.forall_mem_cons.1 h
  exact .cons _ (hm _ _ _ he) (ih hrest)

/-- What an operation builds stands for its term, if what it is applied to does. -/
theorem stands_applied {name : String} {arg : Json} {head : Head} (harg : StandsBuilt c arg)
    (hoperand : StandsBuilt c (operand arg)) (hoperands : ∀ i ∈ operands arg, StandsBuilt c i)
    (hmembers : ∀ members, arg = .object ⟨members⟩ → ∀ m ∈ members, StandsBuilt c m.2)
    (h : (applied c name arg head).run s = .ok (e, t)) : Stands c (head.term arg) s t e := by
  cases head with
  | literal => exact stands_literal h
  | key => exact stands_key h
  | document =>
      cases arg with
      | object members =>
          obtain ⟨fs, s', hfs, h⟩ := run_bind_eq_ok.1 h
          exact stands_document (stands_fields (hmembers members.entries rfl) hfs) h
      | null | bool | number | string | array => exact absurd h run_throw_ne_ok
  | unary op =>
      obtain ⟨x, s', hx, h⟩ := run_bind_eq_ok.1 h
      exact stands_unary (hoperand _ _ _ hx) h
  | binary op =>
      obtain ⟨args, s', hargs, h⟩ := run_bind_eq_ok.1 h
      exact stands_binary (stands_items hoperands hargs) h
  | accumulator op =>
      obtain ⟨scope, type, i, k, s', t', hgroup, hk, hi, hbuilt⟩ := accumulator_eq_ok h
      rcases hbuilt with ⟨rfl, rfl, rfl⟩ | ⟨hop, x, hx, rfl⟩
      · exact stands_count ⟨type, hgroup⟩ hk hi
      · rw [Head.term_accumulator hop]
        exact stands_accumulator hop ⟨type, hgroup⟩ (harg _ _ _ hx) hk hi
  | extension =>
      obtain ⟨args, s', hargs, h⟩ := run_bind_eq_ok.1 h
      exact stands_extension (stands_items hoperands hargs) h

theorem stands_built (c : Surroundings) (j : Json) : StandsBuilt c j := by
  intro s t e h
  induction j using expression_induction generalizing s t e with
  | plain j hplain =>
      rw [term_plain hplain]
      rw [expression_plain hplain] at h
      exact stands_literal h
  | field members path hpath =>
      rw [expression_field hpath] at h
      obtain ⟨p, rfl, hstands⟩ := stands_field h
      rwa [term, hpath]
  | count members hfield hcount =>
      rw [expression_operation hfield, operation_count hcount] at h
      exact absurd h run_throw_ne_ok
  | operation name arg hname harg hoperand hoperands hmembers =>
      rw [term, lookup_singleton hname, operationTerm_eq_term]
      rw [expression_applied hname] at h
      exact stands_applied harg hoperand hoperands hmembers h

/-- An expression that is built stands for its term. -/
theorem stands_expression (j : Json) (h : (expression c j).run s = .ok (e, t)) : Stands c (term j) s t e :=
  stands_built c j s t e h

end Aggregation.Query
