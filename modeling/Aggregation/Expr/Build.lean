import Aggregation.Expr.Error

/-! Building expressions. A node is built only if it obeys the rules of its kind, and it gets a serial that no node
has had before. -/

namespace Aggregation

/-- The serials and scopes that have not been given out. -/
structure Supply where
  nextNode : Nat := 0
  nextScope : Nat := 1
  deriving DecidableEq, Repr, Inhabited

/-- Building, which may fail. -/
abbrev Build (α : Type) := StateT Supply (Except CompileError) α

/-- The type of a binary expression over operands of two types. -/
def BinaryOp.resultType (op : BinaryOp) (left right : ResultType) : Except CompileError ResultType :=
  let demand (ok : ResultType → Bool) (expected : String) (result : ResultType) : Except CompileError ResultType :=
    if ¬ ok left then .error (.operand op.name expected left)
    else if ¬ ok right then .error (.operand op.name expected right)
    else .ok result
  match op with
  | .eq | .ne => .ok .bool
  | .gt | .gte | .lt | .lte =>
    if left.isComparable right then .ok .bool else .error (.operand op.name "mutually comparable" right)
  | .and | .or => demand ResultType.isBoolean "boolean" .bool
  | .add | .subtract | .multiply | .mod => demand ResultType.isNumeric "numeric" (left.promote right)
  | .divide =>
    demand ResultType.isNumeric "numeric" (if left = .any ∨ right = .any then .any else .double)
  | .concat => demand ResultType.isString "string" .string

def UnaryOp.resultType (op : UnaryOp) (operand : ResultType) : Except CompileError ResultType :=
  match op with
  | .not => if operand.isBoolean then .ok .bool else .error (.operand op.name "boolean" operand)
  | .negate => if operand.isNumeric then .ok operand else .error (.operand op.name "numeric" operand)

/-- The type of an accumulator over an operand of a type. Sums of integers are wide. -/
def AccumulatorOp.resultType (op : AccumulatorOp) (operand : Option ResultType) :
    Except CompileError ResultType :=
  match op, operand with
  | .count, none => .ok .int64
  | .count, some _ => .error (.expression .countOperand)
  | op, none => .error (.expression (.missingOperand op))
  | .sum, some t =>
    if ¬ t.isNumeric then .error (.operand op.name "numeric" t)
    else .ok (match t with
      | .any => .any
      | .double => .double
      | _ => .int64)
  | .avg, some t => if t.isNumeric then .ok .double else .error (.operand op.name "numeric" t)
  | .min, some t | .max, some t | .first, some t | .last, some t => .ok t
  | .push, some t | .addToSet, some t => .ok (.array t)

namespace Build

def startsWithDollar (name : String) : Bool := name.toList.head? == some '$'

/-- Whether a part between dots is empty; `fresh` tells that the current part is empty so far. -/
def hasEmptyPart (fresh : Bool) : List Char → Bool
  | [] => fresh
  | '.' :: rest => fresh || hasEmptyPart true rest
  | _ :: rest => hasEmptyPart false rest

/-- Whether a text is a path: parts between dots, none empty, and no dollar sign in front. -/
def isPath (path : String) : Bool := !startsWithDollar path && !hasEmptyPart true path.toList

/-- Whether a text can name an output: no dollar sign in front, and neither a dot nor a NUL in it. -/
def isOutputName (name : String) : Bool :=
  !name.isEmpty && !startsWithDollar name && !name.toList.contains '.' && !name.toList.contains '\x00'

/-- Whether a text can name a collection: no dollar sign in front, and no NUL in it. -/
def isCollection (name : String) : Bool :=
  !name.isEmpty && !name.toList.contains '\x00' && !startsWithDollar name

/-- The greatest number of documents that a stage can skip or keep. -/
def maxCount : Nat := 0x7FFFFFFFFFFFFFFF

/-- Fails with a flaw if a condition does not hold. -/
def demand (condition : Bool) (flaw : ExprFlaw) : Except CompileError Unit :=
  if condition then .ok () else .error (.expression flaw)

def demandScalar (e : Expr) : Except CompileError Unit := demand (!e.isPipeline) (.notScalar e.kind)

/-- Fails on anything but a pipeline. -/
def demandPipeline (e : Expr) : Except CompileError Unit := demand e.isPipeline (.notPipeline e.label)

/-- Fails on a count that no stage can hold. -/
def demandCount (count : Nat) : Except CompileError Unit := demand (count ≤ maxCount) (.hugeCount count)

/-- Fails unless the fields have good names, no name twice, and scalars. -/
def demandFields (seen : List String) : List (String × Expr) → Except CompileError Unit
  | [] => .ok ()
  | (name, e) :: rest => do
    demand (isOutputName name) (.outputName name)
    demand (!seen.contains name) (.duplicateField name)
    demandScalar e
    demandFields (name :: seen) rest

/-- Fails unless the outputs have good names, neither `_id` nor a name twice, and accumulators. -/
def demandOutputs (seen : List String) : List (String × Expr) → Except CompileError Unit
  | [] => .ok ()
  | (name, e) :: rest => do
    demand (isOutputName name) (.outputName name)
    demand (name != "_id" && !seen.contains name) (.reservedOutput name)
    demand (e.kind = .accumulator) (.outputKind name e.kind)
    demandOutputs (name :: seen) rest

/-- Fails on the first key without a path. -/
def demandPaths : List SortKey → Except CompileError Unit
  | [] => .ok ()
  | key :: rest => do
    demand (isPath key.path) (.path key.path)
    demandPaths rest

def mint (type : ResultType) : Build NodeInfo :=
  modifyGet fun s => (⟨s.nextNode, type⟩, { s with nextNode := s.nextNode + 1 })

def mintScope : Build Scope :=
  modifyGet fun s => (⟨s.nextScope⟩, { s with nextScope := s.nextScope + 1 })

def constant (value : Value) : Build Expr := return .constant (← mint (.ofValue value)) value

def field (path : String) (type : ResultType) : Build Expr := do
  demand (isPath path) (.path path)
  return .field (← mint type) path

def binary (op : BinaryOp) (left right : Expr) : Build Expr := do
  demandScalar left
  demandScalar right
  let type ← op.resultType left.type right.type
  return .binary (← mint type) op left right

def unary (op : UnaryOp) (operand : Expr) : Build Expr := do
  demandScalar operand
  let type ← op.resultType operand.type
  return .unary (← mint type) op operand

/-- A document of named scalars. -/
def document (fields : List (String × Expr)) : Build Expr := do
  demandFields [] fields
  return .document (← mint .document) fields

/-- An accumulator over a scalar without accumulators. -/
def accumulator (op : AccumulatorOp) (operand : Option Expr) : Build Expr := do
  if let some e := operand then
    demandScalar e
    demand (!e.containsAccumulator) (.nestedAccumulator op)
  let type ← op.resultType (operand.map Expr.type)
  return .accumulator (← mint type) op operand

def correlated (scope : Scope) (inner : Expr) : Build Expr := do
  demand (inner.kind = .accumulator) (.correlatedKind inner.kind)
  return .correlated (← mint inner.type) scope inner

def source (collection : String) : Build Expr := do
  demand (isCollection collection) (.collection collection)
  return .source (← mint .documents) collection

/-- The documents of which a predicate holds. -/
def filter (input predicate : Expr) : Build Expr := do
  demandPipeline input
  demandScalar predicate
  if ¬ predicate.type.isBoolean then throw (.operand "match" "boolean" predicate.type)
  return .filter (← mint .documents) input predicate

/-- One document for every value of a key. -/
def group (input key : Expr) (scope : Scope) (outputs : List (String × Expr)) : Build Expr := do
  demandPipeline input
  demandScalar key
  demand (!key.containsAccumulator) .accumulatorInKey
  demandOutputs [] outputs
  return .group (← mint .documents) input key scope outputs

def project (input projection : Expr) : Build Expr := do
  demandPipeline input
  demandScalar projection
  return .project (← mint .documents) input projection

/-- The documents in the order of keys. -/
def sort (input : Expr) (keys : List SortKey) : Build Expr := do
  demandPipeline input
  demand (!keys.isEmpty) .noSortKey
  demandPaths keys
  return .sort (← mint .documents) input keys

/-- The documents after the first so many. -/
def skip (input : Expr) (count : Nat) : Build Expr := do
  demandPipeline input
  demandCount count
  return .skip (← mint .documents) input count

/-- The first so many documents. -/
def limit (input : Expr) (count : Nat) : Build Expr := do
  demandPipeline input
  demandCount count
  demand (count != 0) .zeroLimit
  return .limit (← mint .documents) input count

/-- A node of a host. -/
def extension (name : String) (args : List Expr) : Build Expr := return .extension (← mint .any) name args

end Build

end Aggregation
