import Aggregation.Expr.Error

/-! What is tied to each scope in an expression: its accumulators in the order in which they occur, and the number
of its groups. The walk does not enter a correlated accumulator. -/

namespace Aggregation

structure CorrelationMap where
  /-- Scopes in the order of their first accumulator, each with its correlated accumulators. -/
  scopes : List (Scope × List Expr) := []
  /-- Scopes in ascending order, each with the number of its groups. -/
  groups : List (Scope × Nat) := []
  deriving Repr, Inhabited

namespace CorrelationMap

/-- Adds an accumulator to a scope, which comes last if it is new. -/
def addAccumulator (scope : Scope) (e : Expr) : List (Scope × List Expr) → List (Scope × List Expr)
  | [] => [(scope, [e])]
  | (s, es) :: rest => if s = scope then (s, es ++ [e]) :: rest else (s, es) :: addAccumulator scope e rest

/-- Counts a group of a scope; scopes stay in ascending order. -/
def addGroup (scope : Scope) : List (Scope × Nat) → List (Scope × Nat)
  | [] => [(scope, 1)]
  | (s, n) :: rest =>
    if s = scope then (s, n + 1) :: rest
    else if scope.number < s.number then (scope, 1) :: (s, n) :: rest
    else (s, n) :: addGroup scope rest

/-- Records one occurrence of a node. -/
def record (m : CorrelationMap) : Expr → CorrelationMap
  | e@(.correlated _ scope _) => { m with scopes := addAccumulator scope e m.scopes }
  | .group _ _ _ scope _ => { m with groups := addGroup scope m.groups }
  | _ => m

/-- A step of the walk over an expression. -/
abbrev Walk := StateT CorrelationMap (Except CompileError) Unit

mutual

/-- Visits a node and what is below it: what a pipeline reads from comes before what it computes. -/
def visit : Expr → Walk
  | .constant .. | .field .. | .source .. => return
  | .binary _ _ left right => do
    visit left
    visit right
  | .unary _ _ operand => visit operand
  | .document _ fields => visitEntries fields
  | .accumulator _ _ none => return
  | .accumulator _ _ (some operand) => visit operand
  | .correlated i scope inner => modify (·.record (.correlated i scope inner))
  | .filter _ input predicate => do
    visit input
    visit predicate
  | .group i input key scope outputs => do
    modify (·.record (.group i input key scope outputs))
    visit input
    visit key
    visitEntries outputs
  | .project _ input projection => do
    visit input
    visit projection
  | .sort _ input _ | .skip _ input _ | .limit _ input _ => visit input
  | .extension _ _ args => visitArgs args

def visitEntries : List (String × Expr) → Walk
  | [] => return
  | (_, e) :: rest => do
    visit e
    visitEntries rest

def visitArgs : List Expr → Walk
  | [] => return
  | e :: rest => do
    visit e
    visitArgs rest

end

/-- Walks an expression. -/
def gather (root : Expr) : Except CompileError CorrelationMap := do
  let ((), m) ← (visit root).run {}
  return m

/-- What the walk of an expression has recorded; there is no expression on which it fails. -/
def collect (root : Expr) : CorrelationMap :=
  match gather root with
  | .ok m => m
  | .error _ => {}

/-- The scopes that have an accumulator, in the order of their first one. -/
def ids (m : CorrelationMap) : List Scope := m.scopes.map Prod.fst

/-- The accumulators of a scope, in the order of their occurrence. -/
def accumulators (m : CorrelationMap) (scope : Scope) : List Expr := (m.scopes.lookup scope).getD []

def groupCount (m : CorrelationMap) (scope : Scope) : Nat := (m.groups.lookup scope).getD 0

def groupIds (m : CorrelationMap) : List Scope := m.groups.map Prod.fst

def firstDangling? (m : CorrelationMap) : Option Scope := m.ids.find? fun scope => m.groupCount scope == 0

def isEmpty (m : CorrelationMap) : Bool := m.scopes.isEmpty

end CorrelationMap

end Aggregation
