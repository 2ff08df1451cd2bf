import Aggregation.Expr.Basic
import Aggregation.ExtendedJson.Fault
import Aggregation.Wire.Limits

/-! Failures on the way from a query to a pipeline, their codes and messages. An error is fatal if only a mistake in
a step of the compiler can cause it; all others reject the input. -/

namespace Aggregation

/-- What makes a node impossible. -/
inductive ExprFlaw where
  | path (path : String)
  | outputName (name : String)
  | duplicateField (name : String)
  | nestedAccumulator (op : AccumulatorOp)
  | countOperand
  | missingOperand (op : AccumulatorOp)
  | correlatedKind (kind : NodeKind)
  | collection (name : String)
  | accumulatorInKey
  | reservedOutput (name : String)
  | outputKind (name : String) (kind : NodeKind)
  | noSortKey
  | zeroLimit
  | notScalar (kind : NodeKind)
  | notPipeline (label : String)
  | hugeCount (count : Nat)
  | sharedScope (scope : Scope) (groups : Nat)
  | noOperand (op : AccumulatorOp)
  deriving Repr

/-- What is wrong with the node. -/
def ExprFlaw.reason : ExprFlaw → String
  | .path p => "'" ++ p ++ "' is not a valid field path"
  | .outputName name => "'" ++ name ++ "' is not a valid output field name"
  | .duplicateField name => "duplicate field '" ++ name ++ "' in document expression"
  | .nestedAccumulator op => op.name ++ " operand may not contain another accumulator"
  | .countOperand => "count takes no operand"
  | .missingOperand op => op.name ++ " requires an operand"
  | .correlatedKind kind => "only accumulators can be correlated, got " ++ kind.name
  | .collection name => "'" ++ name ++ "' is not a valid collection name"
  | .accumulatorInKey => "group key may not contain an accumulator"
  | .reservedOutput name => "group output name '" ++ name ++ "' is reserved or duplicated"
  | .outputKind name kind => "group output '" ++ name ++ "' must be an accumulator, got " ++ kind.name
  | .noSortKey => "sort needs at least one key"
  | .zeroLimit => "limit must be positive"
  | .notScalar kind => kind.name ++ " cannot be used as a value"
  | .notPipeline label => label ++ " is not a pipeline stage"
  | .hugeCount count => "count " ++ toString count ++ " does not fit a 64-bit signed integer"
  | .sharedScope scope groups =>
    "correlation " ++ scope.label ++ " is claimed by " ++ toString groups ++ " group stages"
  | .noOperand op => op.name ++ " has no operand"

inductive QueryFlaw where
  | unreadable (reason : String)
  /-- The text is not the JSON of a query. -/
  | json
  | keyCount (count : Nat)
  | documentArgument
  | operandCount (op : BinaryOp) (count : Nat)
  | accumulatorOutsideGroup (op : AccumulatorOp)
  | keyOutsideGroup
  | literal (fault : ExtendedJson.Fault)
  | pathNotText
  | typeNotText
  | unknownType (name : String)
  | emptySelect
  deriving Repr

def QueryFlaw.reason : QueryFlaw → String
  | .unreadable reason => "Failed to read query: " ++ reason
  | .json => "Invalid query JSON"
  | .keyCount count => "expression object must have exactly one operator, got " ++ toString count ++ " keys"
  | .documentArgument => "document takes an object of named expressions"
  | .operandCount op count =>
    op.name ++ " takes " ++ (if op.isConnective then "at least 2" else "2") ++ " operands, got " ++ toString count
  | .accumulatorOutsideGroup op => op.name ++ " is only allowed in a group step"
  | .keyOutsideGroup => "key is only allowed in a group step"
  | .literal fault => fault.message
  | .pathNotText => "field path must be a string"
  | .typeNotText => "field type must be a string"
  | .unknownType name => "unknown result type '" ++ name ++ "'"
  | .emptySelect => "group select must name at least one output"

inductive ConfigFlaw where
  | unreadable (reason : String)
  /-- The text is not the JSON of a configuration. -/
  | json
  | emptyStem
  | stem (given : String)
  | limits (fault : Wire.Limits.Fault)
  deriving Repr

def ConfigFlaw.reason : ConfigFlaw → String
  | .unreadable reason => "Failed to read config: " ++ reason
  | .json => "Invalid config JSON"
  | .emptyStem => "group_field_prefix must not be empty"
  | .stem given => "Invalid group_field_prefix: '" ++ given ++ "'"
  | .limits fault => "Codec config error: " ++ fault.message

/-- A failure on the way from a query to a pipeline. -/
inductive CompileError where
  /-- A step of the compiler does not handle a node. -/
  | unsupported (label step : String)
  | typeChange (kind : NodeKind) (expected actual : ResultType)
  | childCount (kind : NodeKind) (expected actual : Nat)
  | operand (operator expected : String) (actual : ResultType)
  | expression (flaw : ExprFlaw)
  /-- No group that an accumulator can read has its scope. -/
  | dangling (scope : Scope)
  /-- Another resolver minted the scope. -/
  | foreign (scope : Scope)
  /-- No stage can say a node in this place. -/
  | unlowered (kind : NodeKind)
  | query (flaw : QueryFlaw)
  | config (flaw : ConfigFlaw)
  deriving Repr

namespace CompileError

/-- The stable code of a failure. -/
def code : CompileError → String
  | .unsupported .. => "DOCPIPE_UNSUPPORTED_EXPRESSION"
  | .typeChange .. => "DOCPIPE_TYPE_INVARIANT_VIOLATION"
  | .childCount .. => "DOCPIPE_CHILD_COUNT_MISMATCH"
  | .operand .. => "DOCPIPE_INCOMPATIBLE_OPERAND"
  | .expression .. => "DOCPIPE_INVALID_EXPRESSION"
  | .dangling .. => "DOCPIPE_DANGLING_CORRELATION"
  | .foreign .. => "DOCPIPE_FOREIGN_CORRELATION"
  | .unlowered .. => "DOCPIPE_UNLOWERED_EXPRESSION"
  | .query .. => "DOCPIPE_INVALID_QUERY"
  | .config .. => "DOCPIPE_INVALID_CONFIG"

def message : CompileError → String
  | .unsupported label step => step ++ " does not support expression kind " ++ label
  | .typeChange kind expected actual =>
    "Rewrite of " ++ kind.name ++ " changes its result type from " ++ expected.name ++ " to " ++ actual.name
  | .childCount kind expected actual =>
    kind.name ++ " has " ++ toString expected ++ " children but update received " ++ toString actual
  | .operand operator expected actual =>
    "Operator " ++ operator ++ " requires " ++ expected ++ " operands, got " ++ actual.name
  | .expression flaw => "Invalid expression: " ++ flaw.reason
  | .dangling scope =>
    "Correlation " ++ scope.label ++ " is referenced by an accumulator but no group stage defines it"
  | .foreign scope => "Correlation " ++ scope.label ++ " was not minted by this resolver"
  | .unlowered kind => "Expression kind " ++ kind.name ++ " has no lowering in this position"
  | .query flaw => "Invalid query: " ++ flaw.reason
  | .config flaw => "Invalid configuration: " ++ flaw.reason

/-- Whether only a mistake in the compiler can cause the failure. -/
def isFatal : CompileError → Bool
  | .typeChange .. | .childCount .. | .dangling .. | .foreign .. | .unlowered .. => true
  | _ => false

/-- The failure of a step that does not handle the kind of a node. -/
def unhandled (step : String) (e : Expr) : CompileError := .unsupported e.label step

/-- The word for how serious the failure is. -/
def severity (e : CompileError) : String := if e.isFatal then "FATAL" else "REJECT"

end CompileError

end Aggregation
