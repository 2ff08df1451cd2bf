import Aggregation.Expr.Update
import Aggregation.Log
import Aggregation.Plan.Basic

/-! Binding accumulators to groups. Each correlated accumulator is replaced by the field of the output that it
reads, which a group before it must have. All other nodes stay unless a child has changed. -/

namespace Aggregation

/-- An expression without correlated accumulators, and the plans of its groups in the order in which they were
reached. -/
structure PlannedTree where
  root : Expr
  groups : List GroupPlan
  deriving Repr

def PlannedTree.group? (t : PlannedTree) (scope : Scope) : Option GroupPlan :=
  t.groups.find? (·.scope = scope)

namespace Binding

structure State where
  /-- The scopes whose groups have been passed. -/
  bound : List Scope := []
  bindings : Bindings := []
  /-- The plans so far, oldest first. -/
  groups : List GroupPlan := []
  deriving Repr, Inhabited

abbrev Bind (α : Type) := StateT State Build α

/-- The field that a correlated accumulator becomes. -/
def readOutput (e : Expr) (scope : Scope) : Bind Expr := do
  let s ← get
  if ¬ s.bound.contains scope then throw (.dangling scope)
  match s.bindings.lookup e.serial with
  | none => throw (.dangling scope)
  | some name => Build.field name e.type

/-- The group with all its outputs, over children that have been bound. -/
def bindGroup (stem : String) (live : Scope → List Expr) (e input key : Expr) (scope : Scope)
    (outputs : List (String × Expr)) (input' key' : Expr) : Bind Expr := do
  let s ← get
  let (plan, bindings) := GroupPlan.ofScope stem scope outputs (live scope) s.bindings
  let isUnchanged := input'.isNode input && key'.isNode key && plan.outputs.length == outputs.length
  let bound ← if isUnchanged then pure e else Build.group input' key' scope plan.outputs
  set { bound := scope :: s.bound, bindings, groups := s.groups ++ [plan] : State }
  return bound

/-- Binds a node: a group after its input and its key, any other node after its children. -/
def bind (stem : String) (live : Scope → List Expr) (e : Expr) : Bind Expr := do
  match _h : e with
  | .correlated _ scope _ => readOutput e scope
  | .group _ input key scope outputs =>
    let input' ← bind stem live input
    let key' ← bind stem live key
    bindGroup stem live e input key scope outputs input' key'
  | _ =>
    let children ← e.children.attach.mapM fun ⟨c, _⟩ => bind stem live c
    e.update children
termination_by sizeOf e
decreasing_by
  all_goals subst _h
  · exact Expr.sizeOf_lt_of_mem_children (by simp [Expr.children])
  · exact Expr.sizeOf_lt_of_mem_children (by simp [Expr.children])
  · exact Expr.sizeOf_lt_of_mem_children ‹_›

end Binding

/-- The stem of the names of outputs unless another is given. -/
def defaultStem : String := "__agg"

/-- Binds every accumulator of an expression. No scope may have two groups. -/
def plan (stem : String) (root : Expr) : Build PlannedTree := do
  let m ← CorrelationMap.gather root
  if let some scope := m.firstDangling? then throw (.dangling scope)
  if let some scope := m.groupIds.find? fun scope => 1 < m.groupCount scope then
    throw (.expression (.sharedScope scope (m.groupCount scope)))
  let (root, s) ← (Binding.bind stem m.accumulators root).run {}
  return ⟨root, s.groups⟩

def PlannedTree.log (t : PlannedTree) : List Log.Entry :=
  t.groups.map fun p => Log.Event.groupStagePlanned.entry
    [("correlation", p.scope.label), ("outputs", toString p.outputs.length),
      ("occurrences", toString p.occurrences)]

end Aggregation
