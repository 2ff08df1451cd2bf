import Aggregation.Expr.Error
import Aggregation.Pipeline.Basic
import Aggregation.Pipeline.Predicate

/-! Expressions as stages. A pipeline becomes its stages, source first, and a scalar becomes a value in which fields
and operators are marked by a dollar sign. A constant that would read as such a mark is wrapped. -/

namespace Aggregation.Lowering

/-- The failure on a node that has no form in its place. -/
def unlowered (step : String) (e : Expr) : CompileError :=
  if e.isExtension then .unhandled step e else .unlowered e.kind

/-- A constant that is not to be read as an expression. -/
def literal (value : Value) : Value := .document (.single "$literal" value)

mutual

/-- Whether a constant would be read as an expression. -/
def needsLiteral : Value → Bool
  | .string s => s.toList.head? == some '$'
  | .document _ => true
  | .array items => anyNeedsLiteral items
  | _ => false

/-- Whether one of some constants would be read as an expression. -/
def anyNeedsLiteral : List Value → Bool
  | [] => false
  | item :: rest => needsLiteral item || anyNeedsLiteral rest

end

/-- An operator with its operands. -/
def apply (key : String) (args : List Value) : Value := .document (.single key (.array args))

mutual

def lowerScalar : Expr → Except CompileError Value
  | .constant _ value => .ok (if needsLiteral value then literal value else value)
  | .field _ path => .ok (.string ("$" ++ path))
  | .binary _ op left right => do
    let left ← lowerScalar left
    let right ← lowerScalar right
    return apply op.stageKey [left, right]
  | .unary _ .not operand => return apply "$not" [← lowerScalar operand]
  | .unary _ .negate operand => return apply BinaryOp.subtract.stageKey [.int32 0, ← lowerScalar operand]
  | .document _ fields => return .document (.ofList (← lowerFields fields))
  | e => .error (unlowered "expression-emitter" e)

/-- The values of named scalars. -/
def lowerFields : List (String × Expr) → Except CompileError (List (String × Value))
  | [] => .ok []
  | (name, e) :: rest => do
    let value ← lowerScalar e
    return (name, value) :: (← lowerFields rest)

end

mutual

/-- The value of a projected scalar. A bare constant would say whether to keep a field, so it is wrapped. -/
def lowerProjected : Expr → Except CompileError Value
  | .constant _ value => .ok (literal value)
  | .document _ fields => return .document (.ofList (← lowerProjectedFields fields))
  | e => lowerScalar e

def lowerProjectedFields : List (String × Expr) → Except CompileError (List (String × Value))
  | [] => .ok []
  | (name, e) :: rest => do
    let value ← lowerProjected e
    return (name, value) :: (← lowerProjectedFields rest)

end

/-- The value of an output of a group. A count adds up ones. -/
def lowerAccumulator : Expr → Except CompileError Value
  | .accumulator _ .count _ => .ok (.document (.single AccumulatorOp.count.stageKey (.int32 1)))
  | .accumulator _ op (some operand) => return .document (.single op.stageKey (← lowerScalar operand))
  | .accumulator _ op none => .error (.expression (.noOperand op))
  | e => .error (.unlowered e.kind)

def lowerOutputs : List (String × Expr) → Except CompileError (List (String × Value))
  | [] => .ok []
  | (name, e) :: rest => do
    let value ← lowerAccumulator e
    return (name, value) :: (← lowerOutputs rest)

/-- The query of a predicate: its own if it has one, else the predicate as an expression. -/
def lowerQuery (e : Expr) : Except CompileError Document :=
  match Predicate.query? e with
  | some query => .ok query
  | none => return .single "$expr" (← lowerScalar e)

/-- The stage of a predicate. One that is always true keeps all documents. -/
def lowerPredicate : Expr → Except CompileError Stage
  | .constant _ (.boolean true) => .ok .keep
  | e => return .filter (← lowerQuery e)

/-- The field that holds a projection that is no document. -/
def scalarField : String := "__value"

/-- The field that leaves the key of a document out. -/
def withoutId : String × Value := ("_id", .int32 0)

/-- The stage of a projection. The key is left out unless a field of the projection replaces it. -/
def lowerProjection : Expr → Except CompileError Stage
  | .document _ fields => do
    let spec ← lowerProjectedFields fields
    return .project (.ofList (if fields.any (·.1 == "_id") then spec else withoutId :: spec))
  | e => return .project (.ofList [withoutId, (scalarField, ← lowerProjected e)])

def sortField (key : SortKey) : String × Value :=
  (key.path, .int32 (match key.direction with
    | .ascending => 1
    | .descending => -1))

def lower : Expr → Except CompileError (String × List Stage)
  | .source _ collection => .ok (collection, [])
  | .filter _ input predicate => do
    let (collection, stages) ← lower input
    return (collection, stages ++ [← lowerPredicate predicate])
  | .group _ input key _ outputs => do
    let (collection, stages) ← lower input
    let key ← lowerScalar key
    let outputs ← lowerOutputs outputs
    return (collection, stages ++ [.group (.ofList (("_id", key) :: outputs))])
  | .project _ input projection => do
    let (collection, stages) ← lower input
    return (collection, stages ++ [← lowerProjection projection])
  | .sort _ input keys => do
    let (collection, stages) ← lower input
    return (collection, stages ++ [.sort (.ofList (keys.map sortField))])
  | .skip _ input count => do
    let (collection, stages) ← lower input
    return (collection, stages ++ [.skip count])
  | .limit _ input count => do
    let (collection, stages) ← lower input
    return (collection, stages ++ [.limit count])
  | e => .error (unlowered "stage-emitter" e)

end Aggregation.Lowering
