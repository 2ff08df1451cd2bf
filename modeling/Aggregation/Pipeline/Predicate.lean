import Aggregation.Expr.Basic
import Aggregation.Value.Equality

/-! Predicates as queries. Comparisons of a field with a constant and their connectives have a query of their own,
which a database can answer from an index; no other predicate has one. -/

namespace Aggregation.Predicate

/-- Whether equality to a value can be written as the value alone. -/
def isPlain : Value → Bool
  | .document _ | .regularExpression .. => false
  | _ => true

def clause (key : String) (value : Value) : Document := .single key value

/-- The query that compares a field with a constant. -/
def comparison (path : String) (op : BinaryOp) (value : Value) : Document :=
  if op = .eq ∧ isPlain value = true then clause path value
  else clause path (.document (clause op.stageKey value))

/-- The clauses of a predicate that stands under a connective, if it has a query. A predicate of the same
connective brings its own clauses, any other predicate is one clause. -/
def clauses? (outer : Option BinaryOp) : Expr → Option (List Document)
  | .binary _ op left right =>
    if op.isComparison then
      match left, right with
      | .field _ path, .constant _ value => some [comparison path op value]
      | .constant _ value, .field _ path => some [comparison path op.swapped value]
      | _, _ => none
    else if op.isConnective then do
      let clauses := (← clauses? (some op) left) ++ (← clauses? (some op) right)
      if outer = some op then return clauses
      else return [clause op.stageKey (.array (clauses.map Value.document))]
    else none
  | .unary _ .not operand =>
    match clauses? none operand with
    | some [query] => some [clause "$nor" (.array [.document query])]
    | _ => none
  | _ => none

def query? (e : Expr) : Option Document :=
  match clauses? none e with
  | some [query] => some query
  | _ => none

end Aggregation.Predicate
