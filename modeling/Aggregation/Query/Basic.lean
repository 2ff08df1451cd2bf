import Aggregation.Expr.Operator
import Aggregation.Json.Basic

/-! Queries as users write them: a collection and steps over its documents. Expressions are kept as JSON. -/

namespace Aggregation

inductive Step where
  | filter (predicate : Json)
  /-- Groups by a key, keeps the groups that a predicate accepts, and selects outputs. -/
  | group (key : Json) (having : Option Json) (select : Record Json)
  | project (fields : Record Json)
  | sort (keys : List SortKey)
  | skip (count : Nat)
  | limit (count : Nat)
  deriving Repr

structure Query where
  collection : String
  steps : List Step
  deriving Repr

def SortKey.toJson (key : SortKey) : Json :=
  .ofMembers [("field", .string key.path), ("direction", .string key.direction.name)]

/-- A step as JSON: one member, whose name says what the step does. -/
def Step.toJson : Step → Json
  | .filter predicate => .ofMembers [("filter", predicate)]
  | .group key having select =>
    .ofMembers [("group", .ofMembers [("key", key), ("having", having.getD .null), ("select", .object select)])]
  | .project fields => .ofMembers [("project", .object fields)]
  | .sort keys => .ofMembers [("sort", .array (keys.map SortKey.toJson))]
  | .skip count => .ofMembers [("skip", .int count)]
  | .limit count => .ofMembers [("limit", .int count)]

def Query.toJson (q : Query) : Json :=
  .ofMembers [("collection", .string q.collection), ("pipeline", .array (q.steps.map Step.toJson))]

end Aggregation
