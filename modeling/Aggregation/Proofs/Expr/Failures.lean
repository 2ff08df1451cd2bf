import Aggregation.Correlation.Resolver
import Aggregation.Proofs.Expr.Runs

/-!
Failures of steps that build. No constructor of a node fails fatally, and a resolver does not for a scope of its own.
-/

namespace Aggregation

/-- A check whose failures all reject the input. -/
def Rejects {α : Type} (x : Except CompileError α) : Prop := ∀ err, x = .error err → err.isFatal = false

namespace Build

variable {α β : Type} {x : Build α} {f : α → Build β}

/-- No run of a step fails fatally. -/
def NeverFatal (x : Build α) : Prop := ∀ s, Rejects (x.run s)

theorem neverFatal_pure (a : α) : NeverFatal (pure a) := nofun

theorem neverFatal_throw {err : CompileError} (h : err.isFatal = false) : NeverFatal (throw err : Build α) := by
  intro s err' herr
  cases herr
  exact h

theorem run_bind_eq_error {s : Supply} {err : CompileError} : (x >>= f).run s = .error err ↔
    x.run s = .error err ∨ ∃ a t, x.run s = .ok (a, t) ∧ (f a).run t = .error err := by
  rw [StateT.run_bind]
  cases hx : x.run s with
  | error e =>
      refine ⟨fun h => .inl ?_, fun h => h.elim (fun h => ?_) fun ⟨_, _, h, _⟩ => (nomatch h)⟩
      · cases h
        rfl
      · cases h
        rfl
  | ok p =>
      refine ⟨fun h => .inr ⟨p.1, p.2, rfl, h⟩, fun h => h.elim (fun h => (nomatch h)) fun ⟨_, _, h, hf⟩ => ?_⟩
      cases h
      exact hf

theorem NeverFatal.bind (hx : NeverFatal x) (hf : ∀ a, NeverFatal (f a)) : NeverFatal (x >>= f) := by
  intro s err herr
  rcases run_bind_eq_error.1 herr with hfirst | ⟨a, t, -, hrest⟩
  · exact hx s err hfirst
  · exact hf a t err hrest

theorem neverFatal_check {check : Except CompileError α} (h : Rejects check) : NeverFatal (liftM check : Build α) := by
  intro s err herr
  cases check with
  | ok a => cases herr
  | error =>
      cases herr
      exact h _ rfl

theorem neverFatal_mint (type : ResultType) : NeverFatal (mint type) := nofun

theorem rejects_bind {y : α → Except CompileError β} {x : Except CompileError α} (hx : Rejects x)
    (hy : ∀ a, Rejects (y a)) : Rejects (x >>= y) := by
  intro err herr
  cases x with
  | error =>
      cases herr
      exact hx _ rfl
  | ok a => exact hy a err herr

theorem rejects_demand (condition : Bool) (flaw : ExprFlaw) : Rejects (demand condition flaw) := by
  intro err herr
  cases condition
  · cases herr
    rfl
  · cases herr

theorem rejects_binaryType (op : BinaryOp) (left right : ResultType) : Rejects (op.resultType left right) := by
  intro err herr
  unfold BinaryOp.resultType at herr
  cases op with
  | eq | ne => cases herr
  | gt | gte | lt | lte =>
      dsimp only at herr
      split at herr <;> cases herr
      rfl
  | and | or | add | subtract | multiply | divide | mod | concat =>
      dsimp only at herr
      split at herr
      · cases herr
        rfl
      · split at herr <;> cases herr
        rfl

theorem rejects_unaryType (op : UnaryOp) (operand : ResultType) : Rejects (op.resultType operand) := by
  intro err herr
  unfold UnaryOp.resultType at herr
  cases op <;> dsimp only at herr <;> split at herr <;> cases herr <;> rfl

theorem rejects_accumulatorType (op : AccumulatorOp) (operand : Option ResultType) :
    Rejects (op.resultType operand) := by
  intro err herr
  unfold AccumulatorOp.resultType at herr
  cases operand with
  | none =>
      cases op with
      | count => cases herr
      | sum | avg | min | max | first | last | push | addToSet =>
          cases herr
          rfl
  | some type =>
      cases op with
      | count =>
          cases herr
          rfl
      | sum | avg =>
          dsimp only at herr
          split at herr <;> cases herr
          rfl
      | min | max | first | last | push | addToSet => cases herr

theorem rejects_demandFields (seen : List String) (fields : List (String × Expr)) :
    Rejects (demandFields seen fields) := by
  induction fields generalizing seen with
  | nil => exact nofun
  | cons f rest ih =>
      exact rejects_bind (rejects_demand _ _) fun _ => rejects_bind (rejects_demand _ _) fun _ =>
        rejects_bind (rejects_demand _ _) fun _ => ih _

theorem rejects_demandOutputs (seen : List String) (outputs : List (String × Expr)) :
    Rejects (demandOutputs seen outputs) := by
  induction outputs generalizing seen with
  | nil => exact nofun
  | cons f rest ih =>
      exact rejects_bind (rejects_demand _ _) fun _ => rejects_bind (rejects_demand _ _) fun _ =>
        rejects_bind (rejects_demand _ _) fun _ => ih _

theorem rejects_demandPaths (keys : List SortKey) : Rejects (demandPaths keys) := by
  induction keys with
  | nil => exact nofun
  | cons key rest ih => exact rejects_bind (rejects_demand _ _) fun _ => ih

/-- A node is made after checks that reject. -/
theorem neverFatal_node (type : ResultType) (node : NodeInfo → Expr) :
    NeverFatal (do return node (← mint type)) :=
  (neverFatal_mint type).bind fun _ => neverFatal_pure _

theorem NeverFatal.check {check : Except CompileError α} (h : Rejects check) (hf : ∀ a, NeverFatal (f a)) :
    NeverFatal (liftM check >>= f) := (neverFatal_check h).bind hf

theorem constant_neverFatal (v : Value) : NeverFatal (constant v) := neverFatal_node _ _

theorem field_neverFatal (path : String) (type : ResultType) : NeverFatal (field path type) :=
  .check (rejects_demand _ _) fun _ => neverFatal_node _ _

theorem binary_neverFatal (op : BinaryOp) (left right : Expr) : NeverFatal (binary op left right) :=
  .check (rejects_demand _ _) fun _ => .check (rejects_demand _ _) fun _ => .check (rejects_binaryType _ _ _) fun _ =>
    neverFatal_node _ _

theorem unary_neverFatal (op : UnaryOp) (operand : Expr) : NeverFatal (unary op operand) :=
  .check (rejects_demand _ _) fun _ => .check (rejects_unaryType _ _) fun _ => neverFatal_node _ _

theorem document_neverFatal (fields : List (String × Expr)) : NeverFatal (document fields) :=
  .check (rejects_demandFields _ _) fun _ => neverFatal_node _ _

theorem accumulator_neverFatal (op : AccumulatorOp) (operand : Option Expr) : NeverFatal (accumulator op operand) := by
  cases operand with
  | none => exact .check (rejects_accumulatorType _ _) fun _ => neverFatal_node _ _
  | some d =>
      exact .check (rejects_demand _ _) fun _ => .check (rejects_demand _ _) fun _ =>
        .check (rejects_accumulatorType _ _) fun _ => neverFatal_node _ _

theorem correlated_neverFatal (scope : Scope) (inner : Expr) : NeverFatal (correlated scope inner) :=
  .check (rejects_demand _ _) fun _ => neverFatal_node _ _

theorem source_neverFatal (collection : String) : NeverFatal (source collection) :=
  .check (rejects_demand _ _) fun _ => neverFatal_node _ _

theorem filter_neverFatal (input predicate : Expr) : NeverFatal (filter input predicate) := by
  refine .check (rejects_demand _ _) fun _ => .check (rejects_demand _ _) fun _ => ?_
  split
  · exact (neverFatal_throw rfl).bind fun _ => neverFatal_node _ _
  · exact neverFatal_node _ _

theorem group_neverFatal (input key : Expr) (scope : Scope) (outputs : List (String × Expr)) :
    NeverFatal (group input key scope outputs) :=
  .check (rejects_demand _ _) fun _ => .check (rejects_demand _ _) fun _ => .check (rejects_demand _ _) fun _ =>
    .check (rejects_demandOutputs _ _) fun _ => neverFatal_node _ _

theorem project_neverFatal (input projection : Expr) : NeverFatal (project input projection) :=
  .check (rejects_demand _ _) fun _ => .check (rejects_demand _ _) fun _ => neverFatal_node _ _

theorem sort_neverFatal (input : Expr) (keys : List SortKey) : NeverFatal (sort input keys) :=
  .check (rejects_demand _ _) fun _ => .check (rejects_demand _ _) fun _ => .check (rejects_demandPaths _) fun _ =>
    neverFatal_node _ _

theorem skip_neverFatal (input : Expr) (count : Nat) : NeverFatal (skip input count) :=
  .check (rejects_demand _ _) fun _ => .check (rejects_demand _ _) fun _ => neverFatal_node _ _

theorem limit_neverFatal (input : Expr) (count : Nat) : NeverFatal (limit input count) :=
  .check (rejects_demand _ _) fun _ => .check (rejects_demand _ _) fun _ => .check (rejects_demand _ _) fun _ =>
    neverFatal_node _ _

theorem extension_neverFatal (name : String) (args : List Expr) : NeverFatal (extension name args) :=
  neverFatal_node _ _

/-- A resolver fails fatally only for a scope that it has not minted. -/
theorem tag_neverFatal {r : Resolver} {scope : Scope} (h : r.owns scope = true) (inner : Expr) :
    NeverFatal (r.tag inner scope) := by
  unfold Resolver.tag
  dsimp only
  rw [if_neg (fun hforeign => hforeign h)]
  exact correlated_neverFatal scope inner

end Build

end Aggregation
