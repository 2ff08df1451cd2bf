import Aggregation.Expr.Basic
import Aggregation.Value.Display

/-! Expressions as text for people. -/

namespace Aggregation.Expr

def showKeys (keys : List SortKey) : String :=
  String.join (keys.map fun key => " " ++ key.path ++ " " ++ key.direction.name)

mutual

def toText : Expr → String
  | .constant _ value => value.describe
  | .field _ path => "$" ++ path
  | .binary _ op left right => "(" ++ left.toText ++ " " ++ op.name ++ " " ++ right.toText ++ ")"
  | .unary _ op operand => op.name ++ "(" ++ operand.toText ++ ")"
  | .document _ fields => "\x7b" ++ showFields fields ++ "\x7d"
  | .accumulator _ op none => op.name ++ "()"
  | .accumulator _ op (some operand) => op.name ++ "(" ++ operand.toText ++ ")"
  | .correlated _ scope inner => inner.toText ++ "@" ++ scope.label
  | .source _ collection => "source(" ++ collection ++ ")"
  | .filter _ input predicate => input.toText ++ " | match " ++ predicate.toText
  | .group _ input key scope outputs =>
    input.toText ++ " | group[" ++ scope.label ++ "] by " ++ key.toText ++ showOutputs outputs
  | .project _ input projection => input.toText ++ " | project " ++ projection.toText
  | .sort _ input keys => input.toText ++ " | sort" ++ showKeys keys
  | .skip _ input count => input.toText ++ " | skip " ++ toString count
  | .limit _ input count => input.toText ++ " | limit " ++ toString count
  | .extension _ name args => name ++ "(" ++ showArgs args ++ ")"

/-- Named expressions between commas. -/
def showFields : List (String × Expr) → String
  | [] => ""
  | [(name, e)] => name ++ ": " ++ e.toText
  | (name, e) :: rest => name ++ ": " ++ e.toText ++ ", " ++ showFields rest

/-- The outputs of a group, each after a comma. -/
def showOutputs : List (String × Expr) → String
  | [] => ""
  | (name, e) :: rest => ", " ++ name ++ " = " ++ e.toText ++ showOutputs rest

/-- Expressions between commas. -/
def showArgs : List Expr → String
  | [] => ""
  | [e] => e.toText
  | e :: rest => e.toText ++ ", " ++ showArgs rest

end

end Aggregation.Expr
