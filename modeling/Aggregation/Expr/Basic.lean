import Aggregation.Expr.Operator
import Aggregation.Expr.ResultType
import Aggregation.Scope

/-! Expressions: scalars over one document, and pipelines over streams of documents. Every node has a serial that
no other node has, so two nodes that were built apart are told apart even if they look alike. -/

namespace Aggregation

/-- What every node has: its serial and the type of its result. -/
structure NodeInfo where
  serial : Nat
  type : ResultType
  deriving DecidableEq, Repr, Inhabited

inductive Expr where
  | constant (info : NodeInfo) (value : Value)
  /-- A dotted path into the current document. -/
  | field (info : NodeInfo) (path : String)
  | binary (info : NodeInfo) (op : BinaryOp) (left right : Expr)
  | unary (info : NodeInfo) (op : UnaryOp) (operand : Expr)
  /-- A document of named results. -/
  | document (info : NodeInfo) (fields : List (String × Expr))
  /-- Only a count has no operand. -/
  | accumulator (info : NodeInfo) (op : AccumulatorOp) (operand : Option Expr)
  /-- An accumulator that the group of a scope has to compute. -/
  | correlated (info : NodeInfo) (scope : Scope) (inner : Expr)
  | source (info : NodeInfo) (collection : String)
  | filter (info : NodeInfo) (input predicate : Expr)
  /-- Every output is an accumulator. -/
  | group (info : NodeInfo) (input key : Expr) (scope : Scope) (outputs : List (String × Expr))
  | project (info : NodeInfo) (input projection : Expr)
  | sort (info : NodeInfo) (input : Expr) (keys : List SortKey)
  | skip (info : NodeInfo) (input : Expr) (count : Nat)
  | limit (info : NodeInfo) (input : Expr) (count : Nat)
  /-- A node of a host, which no stage can express. -/
  | extension (info : NodeInfo) (name : String) (args : List Expr)
  deriving Repr

instance : Inhabited Expr := ⟨.constant default .null⟩

inductive NodeKind where
  | constant
  | field
  | binary
  | unary
  | document
  | accumulator
  | correlated
  | source
  | filter
  | group
  | project
  | sort
  | skip
  | limit
  | extension
  deriving DecidableEq, Repr, Inhabited

def NodeKind.name : NodeKind → String
  | .constant => "Constant"
  | .field => "Field"
  | .binary => "Binary"
  | .unary => "Unary"
  | .document => "Document"
  | .accumulator => "Accumulator"
  | .correlated => "CorrelatedAccumulator"
  | .source => "Source"
  | .filter => "Match"
  | .group => "Group"
  | .project => "Project"
  | .sort => "Sort"
  | .skip => "Skip"
  | .limit => "Limit"
  | .extension => "Extension"

/-- Whether nodes of the kind yield streams of documents. -/
def NodeKind.isPipeline : NodeKind → Bool
  | .source | .filter | .group | .project | .sort | .skip | .limit => true
  | _ => false

namespace Expr

/-- The serial and the type of a node. -/
def info : Expr → NodeInfo
  | .constant i .. | .field i .. | .binary i .. | .unary i .. | .document i .. | .accumulator i ..
  | .correlated i .. | .source i .. | .filter i .. | .group i .. | .project i .. | .sort i ..
  | .skip i .. | .limit i .. | .extension i .. => i

def serial (e : Expr) : Nat := e.info.serial

def type (e : Expr) : ResultType := e.info.type

def kind : Expr → NodeKind
  | .constant .. => .constant
  | .field .. => .field
  | .binary .. => .binary
  | .unary .. => .unary
  | .document .. => .document
  | .accumulator .. => .accumulator
  | .correlated .. => .correlated
  | .source .. => .source
  | .filter .. => .filter
  | .group .. => .group
  | .project .. => .project
  | .sort .. => .sort
  | .skip .. => .skip
  | .limit .. => .limit
  | .extension .. => .extension

/-- Whether a node yields a stream of documents. -/
def isPipeline (e : Expr) : Bool := e.kind.isPipeline

/-- The kind of a node, for extensions with their name. -/
def label : Expr → String
  | .extension _ name _ => "Extension(" ++ name ++ ")"
  | e => e.kind.name

def isNode (d e : Expr) : Bool := d.serial == e.serial

/-- The children of a node in order. -/
def children : Expr → List Expr
  | .constant .. | .field .. | .source .. => []
  | .binary _ _ left right => [left, right]
  | .unary _ _ operand => [operand]
  | .document _ fields => fields.map Prod.snd
  | .accumulator _ _ operand => operand.toList
  | .correlated _ _ inner => [inner]
  | .filter _ input predicate => [input, predicate]
  | .group _ input key _ outputs => input :: key :: outputs.map Prod.snd
  | .project _ input projection => [input, projection]
  | .sort _ input _ | .skip _ input _ | .limit _ input _ => [input]
  | .extension _ _ args => args

theorem sizeOf_lt_of_mem_children {c e : Expr} (h : c ∈ e.children) : sizeOf c < sizeOf e := by
  have entry {entries : List (String × Expr)} (h : c ∈ entries.map Prod.snd) :
      sizeOf c < sizeOf entries := by
    obtain ⟨⟨name, d⟩, hmem, rfl⟩ := List.mem_map.1 h
    have := List.sizeOf_lt_of_mem hmem
    simp only [Prod.mk.sizeOf_spec] at this ⊢
    omega
  cases e with
  | constant | field | source => simp [children] at h
  | document _ fields => have := entry h; simp only [document.sizeOf_spec]; omega
  | accumulator _ _ operand =>
    cases operand with
    | none => simp [children] at h
    | some d =>
      simp only [children, Option.toList_some, List.mem_singleton] at h
      subst h
      simp only [accumulator.sizeOf_spec, Option.some.sizeOf_spec]
      omega
  | group _ input key _ outputs =>
    simp only [children, List.mem_cons] at h
    rcases h with rfl | rfl | h
    · simp only [group.sizeOf_spec]; omega
    · simp only [group.sizeOf_spec]; omega
    · have := entry h; simp only [group.sizeOf_spec]; omega
  | extension _ _ args =>
    have := List.sizeOf_lt_of_mem (show c ∈ args from h)
    simp only [extension.sizeOf_spec]
    omega
  | binary | filter | project =>
    simp only [children, List.mem_cons, List.not_mem_nil, or_false] at h
    rcases h with rfl | rfl <;> simp only [binary.sizeOf_spec, filter.sizeOf_spec, project.sizeOf_spec] <;> omega
  | unary | correlated | sort | skip | limit =>
    simp only [children, List.mem_singleton] at h
    subst h
    simp only [unary.sizeOf_spec, correlated.sizeOf_spec, sort.sizeOf_spec, skip.sizeOf_spec, limit.sizeOf_spec]
    omega

/-- A property of expressions holds if it passes from children to their parent. -/
theorem induction_children {P : Expr → Prop} (step : ∀ e, (∀ c ∈ e.children, P c) → P e) (e : Expr) : P e :=
  step e fun c _ => induction_children step c
termination_by sizeOf e
decreasing_by exact sizeOf_lt_of_mem_children ‹_›

/-- Every occurrence of a node in an expression: itself first, then those in its children in order. -/
def occurrences (e : Expr) : List Expr := e :: e.children.attach.flatMap fun ⟨c, _⟩ => c.occurrences
termination_by sizeOf e
decreasing_by exact sizeOf_lt_of_mem_children ‹_›

/-- The occurrences that are not inside a correlated accumulator. -/
def visible (e : Expr) : List Expr :=
  if e.kind = .correlated then [e] else e :: e.children.attach.flatMap fun ⟨c, _⟩ => c.visible
termination_by sizeOf e
decreasing_by exact sizeOf_lt_of_mem_children ‹_›

/-- Whether a node is an accumulator, with a scope or without. -/
def isAccumulator (e : Expr) : Bool := e.kind = .accumulator || e.kind = .correlated

/-- Whether a node belongs to a host, so that no stage can express it. -/
def isExtension (e : Expr) : Bool := e.kind = .extension

def containsAccumulator (e : Expr) : Bool := e.occurrences.any isAccumulator

end Expr

end Aggregation
