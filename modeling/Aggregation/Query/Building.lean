import Aggregation.Correlation.Resolver
import Aggregation.ExtendedJson.Basic
import Aggregation.Query.Basic

/-! Building the expression of a query. An expression is written as JSON: an object with one member applies an
operator to its argument, an object with the member `field` is a field, and all else is a constant. Accumulators and
the key of a group may stand only in what a grouping keeps and selects. -/

namespace Aggregation

/-- Where an expression stands: the scopes that there are, and the scope and the type of the key of the grouping
around it, if there is one. -/
structure Surroundings where
  resolver : Resolver
  group : Option (Scope × ResultType) := none
  deriving Repr

namespace Query

/-- A constant. -/
def literal (j : Json) : Build Expr :=
  match ExtendedJson.toValue j with
  | .ok value => Build.constant value
  | .error fault => throw (.query (.literal fault))

/-- A field; nothing is known about its type unless it says so. -/
def field (path : Json) (type : Option Json) : Build Expr := do
  match path with
  | .string path =>
    match type with
    | none => Build.field path .any
    | some (.string name) =>
      match ResultType.ofName? name with
      | some type => Build.field path type
      | none => throw (.query (.unknownType name))
    | some _ => throw (.query .typeNotText)
  | _ => throw (.query .pathNotText)

def groupKey (c : Surroundings) : Build Expr :=
  match c.group with
  | some (_, type) => Build.field "_id" type
  | none => throw (.query .keyOutsideGroup)

/-- An operator over its operands, from the left. Only connectives take more than two. -/
def binary (op : BinaryOp) (args : List Expr) : Build Expr :=
  match args with
  | first :: second :: rest =>
    if rest.isEmpty || op.isConnective then (second :: rest).foldlM (Build.binary op) first
    else throw (.query (.operandCount op args.length))
  | _ => throw (.query (.operandCount op args.length))

mutual

def expression (c : Surroundings) : Json → Build Expr
  | .object ⟨members⟩ =>
    match members.lookup "field" with
    | some path => field path (members.lookup "type")
    | none => operation c members
  | j => literal j

/-- The expression of an object with one member. -/
def operation (c : Surroundings) : List (String × Json) → Build Expr
  | [(name, arg)] =>
    if name = "literal" then literal arg
    else if name = "key" then groupKey c
    else if name = "document" then
      match arg with
      | .object ⟨members⟩ => do Build.document (← fields c members)
      | _ => throw (.query .documentArgument)
    else
      match UnaryOp.ofName? name with
      | some op => do
        let operand ← match arg with
          | .array [item] => expression c item
          | arg => expression c arg
        Build.unary op operand
      | none =>
        match BinaryOp.ofName? name with
        | some op => do
          let args ← match arg with
            | .array items => expressions c items
            | arg => List.singleton <$> expression c arg
          binary op args
        | none =>
          match AccumulatorOp.ofName? name with
          | some op =>
            match c.group with
            | none => throw (.query (.accumulatorOutsideGroup op))
            | some (scope, _) => do
              let operand ← if op = .count then pure none else some <$> expression c arg
              c.resolver.tag (← Build.accumulator op operand) scope
          | none => do
            let args ← match arg with
              | .array items => expressions c items
              | arg => List.singleton <$> expression c arg
            Build.extension name args
  | members => throw (.query (.keyCount members.length))

/-- The expressions of items in order. -/
def expressions (c : Surroundings) : List Json → Build (List Expr)
  | [] => return []
  | j :: rest => do
    let e ← expression c j
    return e :: (← expressions c rest)

/-- Named expressions in order. -/
def fields (c : Surroundings) : List (String × Json) → Build (List (String × Expr))
  | [] => return []
  | (name, j) :: rest => do
    let e ← expression c j
    return (name, e) :: (← fields c rest)

end

def document (c : Surroundings) (members : Record Json) : Build Expr := do
  Build.document (← fields c members.entries)

/-- A grouping: a group of a new scope, the documents of it that are kept, and what is selected from them. -/
def group (resolver : Resolver) (input : Expr) (key : Json) (having : Option Json) (select : Record Json) :
    Build (Expr × Resolver) := do
  if select.isEmpty then throw (.query .emptySelect)
  let (scope, resolver) ← resolver.mint
  let key ← expression ⟨resolver, none⟩ key
  let c : Surroundings := ⟨resolver, some (scope, key.type)⟩
  let grouped ← Build.group input key scope []
  let kept ← match having with
    | none => pure grouped
    | some predicate => do Build.filter grouped (← expression c predicate)
  return (← Build.project kept (← document c select), resolver)

/-- The pipeline after one more step. -/
def step (resolver : Resolver) (input : Expr) : Step → Build (Expr × Resolver)
  | .filter predicate => do
    return (← Build.filter input (← expression ⟨resolver, none⟩ predicate), resolver)
  | .group key having select => group resolver input key having select
  | .project fields => do return (← Build.project input (← document ⟨resolver, none⟩ fields), resolver)
  | .sort keys => return (← Build.sort input keys, resolver)
  | .skip count => return (← Build.skip input count, resolver)
  | .limit count => return (← Build.limit input count, resolver)

/-- The pipeline after more steps. -/
def follow (resolver : Resolver) (input : Expr) : List Step → Build Expr
  | [] => return input
  | s :: rest => do
    let (next, resolver) ← step resolver input s
    follow resolver next rest

def build (q : Query) : Build Expr := do
  follow {} (← Build.source q.collection) q.steps

end Query

end Aggregation
